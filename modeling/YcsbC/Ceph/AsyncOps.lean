import YcsbC.Ceph.RealCephSystem

/-!
# Counting the asynchronous operations

A call increments `async_op_count` after it has submitted its operation, and the callback may have
decremented it before. The counter is the number of increments minus the number of decrements, and
`mutex_` allows one submitted operation at most that is not counted yet. So the counter lies at most
one below the number of outstanding operations, and equals it when no call is running.

## Main definitions

* `RealCephDB.decrements`, `outstanding`: operations by the state of their callbacks.
* `RealCephSystem.Counted`: the invariant.

## Main results

* `RealCephSystem.counted`: the invariant holds in every run.
* `RealCephSystem.close_drains`: `Close` waits for all operations.
-/

namespace YcsbC

variable {ι : Type}

/-- The callback has decremented `async_op_count`. -/
def Completion.isDecremented : Completion → Bool
  | decremented => true
  | finished => true
  | _ => false

namespace RealCephDB

/-- The number of decrements that callbacks have done. -/
def decrements (s : RealCephDB ι) : ℕ := s.aios.countP fun a => a.completion.isDecremented

/-- The number of submitted operations whose callback has not decremented `async_op_count`. -/
def outstanding (s : RealCephDB ι) : ℕ := s.aios.countP fun a => !a.completion.isDecremented

theorem decrements_add_outstanding (s : RealCephDB ι) :
    s.decrements + s.outstanding = s.aios.length := by
  rw [List.length_eq_countP_add_countP fun a : Aio ι => a.completion.isDecremented]
  simp only [decrements, outstanding, Bool.not_eq_true, Bool.decide_eq_false]

/-- How a step of a completion changes the number of decrements. -/
theorem decrements_complete {s : RealCephDB ι} {n : ℕ} {a : Aio ι} (ha : s.aios[n]? = some a)
    (c : Completion) :
    (s.complete n a c).decrements + (if a.completion.isDecremented then 1 else 0) =
      s.decrements + if c.isDecremented then 1 else 0 := by
  obtain ⟨hn, rfl⟩ := List.getElem?_eq_some_iff.1 ha
  simp only [decrements, complete, List.countP_set hn]
  have hpos : (if s.aios[n].completion.isDecremented then 1 else 0) ≤
      s.aios.countP fun a => a.completion.isDecremented := by
    split_ifs with hdec
    · exact List.countP_pos_iff.2 ⟨_, List.getElem_mem hn, hdec⟩
    · exact Nat.zero_le _
  omega

@[simp] theorem length_complete (s : RealCephDB ι) (n : ℕ) (a : Aio ι) (c : Completion) :
    (s.complete n a c).aios.length = s.aios.length :=
  List.length_set

/-! ### The calls -/

/-- A step of a call, where `g` operations are submitted and not counted before it, and `g'` are
after it. -/
structure CountMove (g : ℕ) (s : RealCephDB ι) (g' : ℕ) (s' : RealCephDB ι) : Prop where
  asyncOpCount : s'.asyncOpCount =
    s.asyncOpCount + Int32.ofInt ((s'.increments : ℤ) - s.increments)
  balance : s'.increments + g' + s.aios.length = s.increments + g + s'.aios.length
  decrements : s'.decrements = s.decrements
  le_one : g' ≤ 1

variable {s : RealCephDB ι} {g : ℕ}

theorem countMove_of_eq {s' : RealCephDB ι} (hg : g ≤ 1) (haios : s'.aios = s.aios)
    (hcount : s'.asyncOpCount = s.asyncOpCount) (hincrements : s'.increments = s.increments) :
    CountMove g s g s' := by
  refine ⟨?_, by rw [haios, hincrements], by rw [RealCephDB.decrements, haios]; rfl, hg⟩
  rw [hcount, hincrements, Int.sub_self]
  exact (Int32.add_zero _).symm

theorem countMove_submit (kind : AioKind ι) (offset : ℤ) (s : RealCephDB ι) :
    CountMove 0 s 1 { s with aios := s.aios ++ [⟨kind, offset, .pending⟩] } := by
  refine ⟨?_, ?_, ?_, le_rfl⟩
  · rw [Int.sub_self]
    exact (Int32.add_zero _).symm
  · simp only [List.length_append, List.length_singleton]
    omega
  · simp [RealCephDB.decrements, Completion.isDecremented]

theorem countMove_count (s : RealCephDB ι) :
    CountMove 1 s 0
      { s with asyncOpCount := s.asyncOpCount + 1, increments := s.increments + 1 } := by
  refine ⟨?_, ?_, rfl, Nat.zero_le 1⟩
  · have hone : ((s.increments + 1 : ℕ) : ℤ) - s.increments = 1 := by omega
    simp only [hone]
    rfl
  · show s.increments + 1 + 0 + s.aios.length = s.increments + 1 + s.aios.length
    omega

/-- Whatever a call does, it leaves no operation uncounted. -/
abbrev CountObeys (g : ℕ) {α : Type} (p : Program (RealCephDB ι) α) : Prop :=
  p.Obeys (fun _ _ => True) CountMove (fun g' _ => g' = 0) g

open Program

theorem countObeys_atomic {β : Type} {f : RealCephDB ι → β × RealCephDB ι}
    (hf : ∀ s, (f s).2.aios = s.aios ∧ (f s).2.asyncOpCount = s.asyncOpCount ∧
      (f s).2.increments = s.increments) : CountObeys 0 (atomic f) :=
  obeys_atomic fun s _ =>
    ⟨0, countMove_of_eq (Nat.zero_le 1) (hf s).1 (hf s).2.1 (hf s).2.2, rfl⟩

theorem CountObeys.bind {α β : Type} {p : Program (RealCephDB ι) β}
    {k : β → Program (RealCephDB ι) α} (hp : CountObeys 0 p) (hk : ∀ b, CountObeys 0 (k b)) :
    CountObeys 0 (p >>= k) :=
  Obeys.bind hp fun b g hg => by
    subst hg
    exact hk b

theorem countObeys_countOp : CountObeys (ι := ι) 0 countOp :=
  countObeys_atomic fun _ => ⟨rfl, rfl, rfl⟩

theorem countObeys_pushTime (v : TimeVector) : CountObeys (ι := ι) 0 (pushTime v) :=
  countObeys_atomic fun _ => ⟨rfl, rfl, rfl⟩

theorem countObeys_getPhase : CountObeys (ι := ι) 0 getPhase :=
  countObeys_atomic fun _ => ⟨rfl, rfl, rfl⟩

theorem countObeys_submit {α : Type} (kind : AioKind ι) (offset : ℤ)
    {p : Program (RealCephDB ι) α} (hp : CountObeys 0 p) :
    CountObeys 0 (do
      submit kind offset
      countAsyncOp
      p) := by
  refine obeys_atomic_bind fun s _ => ⟨1, countMove_submit kind offset s, ?_⟩
  exact obeys_atomic_bind fun s' _ => ⟨0, countMove_count s', hp⟩

theorem countObeys_read (key : Str) : CountObeys (ι := ι) 0 (read key) := by
  refine countObeys_countOp.bind fun _ => ?_
  refine (countObeys_atomic fun _ => ⟨rfl, rfl, rfl⟩).bind fun buff => ?_
  cases realKey key with
  | none => exact obeys_pure rfl
  | some n =>
    exact countObeys_submit _ _ ((countObeys_pushTime _).bind fun _ => obeys_pure rfl)

variable [DecidableEq ι]

theorem countObeys_writeBlock (i : ι) (key : Str) : CountObeys 0 (writeBlock i key) := by
  refine (countObeys_atomic fun _ => ⟨rfl, rfl, rfl⟩).bind fun _ => ?_
  cases realKey key with
  | none => exact obeys_pure rfl
  | some n => exact countObeys_submit _ _ (obeys_pure rfl)

theorem countObeys_update (i : ι) (key : Str) : CountObeys 0 (update i key) := by
  refine countObeys_countOp.bind fun _ => (countObeys_writeBlock i key).bind fun b => ?_
  cases b with
  | false => exact obeys_pure rfl
  | true => exact (countObeys_pushTime _).bind fun _ => obeys_pure rfl

theorem countObeys_insert (i : ι) (key : Str) : CountObeys 0 (insert i key) := by
  have hcount : CountObeys (ι := ι) 0 countInsert := countObeys_getPhase.bind fun phase => by
    split_ifs
    · exact countObeys_countOp
    · exact obeys_pure rfl
  have hpush : CountObeys (ι := ι) 0 pushInsertTime := countObeys_getPhase.bind fun phase => by
    split_ifs <;> exact countObeys_pushTime _
  refine countObeys_getPhase.bind fun phase => ?_
  split_ifs with hphase
  · exact obeys_pure rfl
  refine hcount.bind fun _ => (countObeys_writeBlock i key).bind fun b => ?_
  cases b with
  | false => exact obeys_pure rfl
  | true => exact hpush.bind fun _ => obeys_pure rfl

/-- Every request leaves no operation uncounted. -/
theorem countObeys_program (i : ι) (r : CephRequest) : CountObeys 0 (r.program i) := by
  cases r with
  | init flag => exact countObeys_atomic fun _ => ⟨rfl, rfl, rfl⟩
  | call c =>
    cases c with
    | read key => exact countObeys_read key
    | update key => exact countObeys_update i key
    | insert key => exact countObeys_insert i key
    | scan key =>
      exact countObeys_countOp.bind fun _ => (countObeys_pushTime _).bind fun _ => obeys_pure rfl
    | delete key =>
      exact countObeys_countOp.bind fun _ => (countObeys_pushTime _).bind fun _ => obeys_pure rfl

end RealCephDB

/-! ### The invariant -/

namespace RealCephSystem

variable {s s' : RealCephSystem ι} {e : CephEvent ι} {g : ℕ}

/-- The counter is the number of increments minus the number of decrements, `g` operations are
submitted and not counted, and after the join no thread has anything left to do. -/
structure Counted (s : RealCephSystem ι) (g : ℕ) : Prop where
  asyncOpCount : s.db.asyncOpCount = Int32.ofInt ((s.db.increments : ℤ) - s.db.decrements)
  balance : s.db.increments + g = s.db.aios.length
  le_one : g ≤ 1
  joined : s.main.joined → ∀ i, s.client i = .idle []

/-- While fewer than 2^31 operations are outstanding, the counter does not wrap. -/
theorem Counted.toInt (h : Counted s g) (hs : s.db.outstanding < 2 ^ 31) :
    s.db.asyncOpCount.toInt = (s.db.increments : ℤ) - s.db.decrements ∧
      s.db.asyncOpCount.toInt = (s.db.outstanding : ℤ) - g := by
  have hsum := s.db.decrements_add_outstanding
  have hbalance := h.balance
  have hg := h.le_one
  rw [h.asyncOpCount, Int32.toInt_ofInt_of_le (by omega) (by omega)]
  omega

theorem CallbackMove.counts (h : CallbackMove s e s') :
    s'.db.increments = s.db.increments ∧ s'.db.aios.length = s.db.aios.length ∧
      ∃ d : ℕ, s'.db.decrements = s.db.decrements + d ∧
        s'.db.asyncOpCount = s.db.asyncOpCount - Int32.ofInt d := by
  have hsub : ∀ x : Int32, x = x - Int32.ofInt (0 : ℕ) := fun x => (Int32.sub_zero x).symm
  have hcomplete : ∀ {db : RealCephDB ι} {n : ℕ} {a : Aio ι} {c : Completion},
      db.aios[n]? = some a → a.completion.isDecremented = c.isDecremented →
      (db.complete n a c).decrements = db.decrements := fun {db n a c} ha hc => by
    have hdec := RealCephDB.decrements_complete ha c
    rw [hc] at hdec
    exact Nat.add_right_cancel hdec
  cases h with
  | exit ha hk hc => exact ⟨rfl, rfl, 0, rfl, hsub _⟩
  | start ha hc =>
    exact ⟨rfl, RealCephDB.length_complete .., 0, hcomplete ha (by rw [hc]; rfl), hsub _⟩
  | @free n a p ha hk hc =>
    exact ⟨rfl, RealCephDB.length_complete .., 0,
      hcomplete (show (s.db.free p).aios[n]? = some a from ha) (by rw [hc]; rfl), hsub _⟩
  | notify ha hc =>
    exact ⟨rfl, RealCephDB.length_complete .., 0, hcomplete ha (by rw [hc]; rfl), hsub _⟩
  | @decrement n a ha hc =>
    have hdec := RealCephDB.decrements_complete (s := s.db.uncountAsyncOp) ha .decremented
    have hbefore : a.completion.isDecremented = false := by
      rw [hc]
      cases a.kind <;> rfl
    simp only [hbefore, Bool.false_eq_true, if_false] at hdec
    exact ⟨rfl, RealCephDB.length_complete .., 1, hdec, rfl⟩

theorem Counted.callback (h : Counted s g) (hmove : CallbackMove s e s') : Counted s' g := by
  obtain ⟨hinc, hlength, d, hdec, hcount⟩ := hmove.counts
  obtain ⟨hclient, -, hjoined, -⟩ := hmove.threads
  refine ⟨?_, by rw [hinc, hlength]; exact h.balance, h.le_one, fun hj i => ?_⟩
  · rw [hcount, h.asyncOpCount, hinc, hdec, ← Int32.ofInt_sub]
    congr 1
    omega
  · rw [hclient]
    exact h.joined (hjoined ▸ hj) i

variable [DecidableEq ι] {ok : RealCephSystem ι → CephEvent ι → Prop}
  {load transactions : ι → List CephRequest}

/-- **The counts are in order in every run.** -/
theorem counted (h : Runs (Step transactions) ok (new load) s) :
    ∃ g, Counted s g ∧ Tracks 0 (fun _ _ _ _ => True) (fun _ _ => RealCephDB.CountMove)
      (fun _ _ g _ => g = 0) s g := by
  refine invariant h ⟨rfl, rfl, Nat.zero_le 1, fun hj => by cases hj⟩
    ?_ ?_ ?_ ?_ ?_ ?_ ?_
  · intro s i r rs hs _ _ hi
    exact ⟨0, RealCephDB.countObeys_program i r, hs.asyncOpCount, hs.balance, hs.le_one,
      fun hj => by cases (hs.joined hj i).symm.trans hi⟩
  · exact fun _ _ _ _ _ _ _ _ _ => trivial
  · intro s g i r p rs g' db' p' hs _ hi hm
    refine ⟨?_, ?_, hm.le_one, fun hj => by cases (hs.joined hj i).symm.trans hi⟩
    · show db'.asyncOpCount = Int32.ofInt ((db'.increments : ℤ) - db'.decrements)
      rw [hm.asyncOpCount, hs.asyncOpCount, hm.decrements, ← Int32.ofInt_add]
      congr 1
      omega
    · have hbalance := hm.balance
      have hold := hs.balance
      show db'.increments + g' = db'.aios.length
      omega
  · intro s g i r p rs st hs _ _ hi hg
    obtain rfl : g = 0 := hg
    exact ⟨hs.asyncOpCount, hs.balance, hs.le_one,
      fun hj => by cases (hs.joined hj i).symm.trans hi⟩
  · intro s g i r p rs hs _ _ hi hg
    obtain rfl : g = 0 := hg
    exact ⟨hs.asyncOpCount, hs.balance, hs.le_one,
      fun hj => by cases (hs.joined hj i).symm.trans hi⟩
  · exact fun s g e s' hs _ hmove => hs.callback hmove
  · intro s g e s' hs htracks _ hmove
    refine ⟨?_, ?_, hs.le_one, ?_⟩
    · cases hmove <;> exact hs.asyncOpCount
    · cases hmove <;> exact hs.balance
    · cases hmove with
      | joinLoad hmain hi => exact fun hj => by cases hj
      | joinTransactions hmain hi => exact fun _ => hi
      | lockAsync hmain =>
        exact fun _ => hs.joined (by rcases hmain with hmain | hmain <;> rw [hmain] <;> rfl)
      | test hmain => exact fun _ => hs.joined (by rw [hmain]; rfl)
      | block hmain => exact fun _ => hs.joined (by rw [hmain]; rfl)
      | rbdClose hmain => exact fun _ => hs.joined (by rw [hmain]; rfl)
      | handleAllData hmain => exact fun _ => hs.joined (by rw [hmain]; rfl)

/-- The assumption that fewer than 2^31 operations are outstanding whenever a step is taken. -/
def Bounded (s : RealCephSystem ι) (_ : CephEvent ι) : Prop := s.db.outstanding < 2 ^ 31

/-- Once `wait_for_all_async_ops` has returned, no operation is outstanding. -/
theorem outstanding_of_waited (h : Runs (Step transactions) Bounded (new load) s)
    (hs : s.main.waited) : s.db.outstanding = 0 := by
  revert hs
  refine h.invariant (I := fun s => s.main.waited → s.db.outstanding = 0)
    (fun hw => by cases hw) ?_
  rintro s e s' hrun ih hbounded ⟨-, hclient | hback | hmove⟩ hw
  · -- no thread has anything left to do
    obtain ⟨g, hcounted, -⟩ := counted hrun
    have hidle : s.main.waited → ∀ i, s.client i = .idle [] := fun hw =>
      hcounted.joined (by cases hm : s.main <;> rw [hm] at hw <;> first | rfl | cases hw)
    cases hclient with
    | lock _ hi => cases (hidle hw _).symm.trans hi
    | run hi => cases (hidle hw _).symm.trans hi
    | ret hi => cases (hidle hw _).symm.trans hi
    | throw hi => cases (hidle hw _).symm.trans hi
  · obtain ⟨-, hlength, d, hdec, -⟩ := hback.counts
    obtain ⟨-, -, -, hwaited⟩ := hback.threads
    have hold := ih (hwaited ▸ hw)
    have hsum := s.db.decrements_add_outstanding
    have hsum' := s'.db.decrements_add_outstanding
    omega
  · cases hmove with
    | joinLoad hmain _ => cases hw
    | joinTransactions hmain _ => cases hw
    | lockAsync hmain => cases hw
    | block hmain => cases hw
    | rbdClose hmain => exact ih (by rw [hmain]; rfl)
    | handleAllData hmain => exact ih (by rw [hmain]; rfl)
    | test hmain =>
      -- the test succeeds: the counter is 0, and no call is running
      obtain ⟨g, hcounted, htracks⟩ := counted hrun
      have hg : g = 0 := htracks.idle (htracks.mutex_eq_none
        (hcounted.joined (by rw [hmain]; rfl)))
      have hzero : s.db.asyncOpCount = 0 := by
        by_contra hne
        simp only [if_neg hne] at hw
        cases hw
      have htoInt := (hcounted.toInt hbounded).2
      rw [hzero, hg] at htoInt
      have hval : (0 : Int32).toInt = 0 := rfl
      rw [hval] at htoInt
      show s.db.outstanding = 0
      omega

omit [DecidableEq ι] in
/-- A state with at most one operation. -/
theorem bounded_of_length {e : CephEvent ι} (h : s.db.aios.length ≤ 1) : Bounded s e := by
  have hsum := s.db.decrements_add_outstanding
  show s.db.outstanding < 2 ^ 31
  omega

/-- One `Read` whose callback runs before the count: the load thread calls `Init`, the transaction
thread calls `Init` and comes to `rbd_aio_read`, and the callback decrements the counter. Then the
call counts the operation and returns, and `Close` drains at once. -/
theorem runs_read_uncounted :
    (∃ s : RealCephSystem Unit,
        Runs (Step fun _ => transactionRequests [.read "user0".toList]) Bounded
          (new fun _ => loadRequests []) s ∧ s.db.aios.length ≤ 1 ∧
          s.db.asyncOpCount.toInt = -1) ∧
      ∃ s : RealCephSystem Unit,
        Runs (Step fun _ => transactionRequests [.read "user0".toList]) Bounded
          (new fun _ => loadRequests []) s ∧ s.db.aios.length ≤ 1 ∧ s.main = .drained := by
  have hzero : ∀ {s : RealCephSystem Unit} {e}, s.db.aios.length ≤ 1 → Bounded s e :=
    bounded_of_length
  have hnew : Runs (Step fun _ : Unit => transactionRequests [.read "user0".toList]) Bounded
    (new fun _ => loadRequests []) (new fun _ => loadRequests []) := .start
  have hlock := runs_client hnew (hzero (Nat.zero_le 1)) rfl (.lock (i := ()) rfl rfl)
  have hinit := runs_client hlock (hzero (Nat.zero_le 1)) rfl (.run (i := ()) rfl)
  have hret := runs_client hinit (hzero (Nat.zero_le 1)) rfl (.ret (i := ()) rfl)
  have hjoin := runs_main hret (hzero (Nat.zero_le 1)) rfl (.joinLoad rfl fun _ => rfl)
  have hlock' := runs_client hjoin (hzero (Nat.zero_le 1)) rfl (.lock (i := ()) rfl rfl)
  have hinit' := runs_client hlock' (hzero (Nat.zero_le 1)) rfl (.run (i := ()) rfl)
  have hret' := runs_client hinit' (hzero (Nat.zero_le 1)) rfl (.ret (i := ()) rfl)
  have hread := runs_client hret' (hzero (Nat.zero_le 1)) rfl (.lock (i := ()) rfl rfl)
  have hops := runs_client hread (hzero (Nat.zero_le 1)) rfl (.run (i := ()) rfl)
  have hmalloc := runs_client hops (hzero (Nat.zero_le 1)) rfl (.run (i := ()) rfl)
  have hsubmit := runs_client hmalloc (hzero (Nat.zero_le 1)) rfl (.run (i := ()) rfl)
  have hstart := runs_callback hsubmit (hzero le_rfl) rfl (.start (n := 0) rfl rfl)
  have hfree := runs_callback hstart (hzero le_rfl) rfl (.free (n := 0) rfl rfl rfl)
  have hdecrement := runs_callback hfree (hzero le_rfl) rfl (.decrement (n := 0) rfl rfl)
  have hcount := runs_client hdecrement (hzero le_rfl) rfl (.run (i := ()) rfl)
  have hpush := runs_client hcount (hzero le_rfl) rfl (.run (i := ()) rfl)
  have hreturn := runs_client hpush (hzero le_rfl) rfl (.ret (i := ()) rfl)
  have hclose := runs_main hreturn (hzero le_rfl) rfl (.joinTransactions rfl fun _ => rfl)
  have hwait := runs_main hclose (hzero le_rfl) rfl (.lockAsync (.inl rfl))
  have htest := runs_main hwait (hzero le_rfl) rfl (.test rfl)
  exact ⟨⟨_, hdecrement, le_rfl, rfl⟩, _, htest, le_rfl, rfl⟩

/-- **`Close` drains exactly the outstanding operations.** In every reachable state the counter is
the number of increments minus the number of decrements; it can be one below 0 while a call runs;
when no call is running it is the number of outstanding operations; and from the return of
`wait_for_all_async_ops` on there is none. -/
theorem close_drains (h : Runs (Step transactions) Bounded (new load) s)
    (hs : s.db.outstanding < 2 ^ 31) :
    s.db.asyncOpCount.toInt = (s.db.increments : ℤ) - s.db.decrements ∧
      ((∀ i r p rs, s.client i ≠ .running r p rs) →
        s.db.asyncOpCount.toInt = s.db.outstanding) ∧
      (s.main.waited → s.db.outstanding = 0) ∧
      -1 ≤ s.db.asyncOpCount.toInt ∧
      ∃ s₁ : RealCephSystem Unit,
        Runs (Step fun _ => transactionRequests [.read "user0".toList]) Bounded
          (new fun _ => loadRequests []) s₁ ∧ s₁.db.aios.length ≤ 1 ∧
          s₁.db.asyncOpCount.toInt = -1 := by
  obtain ⟨g, hcounted, htracks⟩ := counted h
  obtain ⟨hdiff, hout⟩ := hcounted.toInt hs
  refine ⟨hdiff, fun hidle => ?_, outstanding_of_waited h, ?_, runs_read_uncounted.1⟩
  · have hmutex : s.mutex = none := by
      rw [Option.eq_none_iff_forall_ne_some]
      intro i hi
      obtain ⟨r, p, rs, hrun⟩ := htracks.running i hi
      exact hidle i r p rs hrun
    rw [htracks.idle hmutex] at hout
    omega
  · have hg := hcounted.le_one
    omega

/-- The counts of a run with one `Read`, at the time when the counter is negative and when `Close`
has drained. -/
theorem close_drains_one_read :
    (∃ s : RealCephSystem Unit,
        Runs (Step fun _ => transactionRequests [.read "user0".toList]) Bounded
          (new fun _ => loadRequests []) s ∧ s.db.asyncOpCount.toInt = -1 ∧
        s.db.asyncOpCount.toInt = (s.db.increments : ℤ) - s.db.decrements) ∧
      ∃ s : RealCephSystem Unit,
        Runs (Step fun _ => transactionRequests [.read "user0".toList]) Bounded
          (new fun _ => loadRequests []) s ∧ s.main = .drained ∧ s.db.outstanding = 0 := by
  obtain ⟨⟨s, hrun, hlength, hcount⟩, s', hrun', hlength', hmain⟩ := runs_read_uncounted
  obtain ⟨hdiff, -⟩ := close_drains hrun (bounded_of_length (e := .test) hlength)
  obtain ⟨-, -, hwaited, -⟩ := close_drains hrun' (bounded_of_length (e := .test) hlength')
  exact ⟨⟨s, hrun, hcount, hdiff⟩, s', hrun', hmain, hwaited (by rw [hmain]; rfl)⟩

end RealCephSystem

end YcsbC
