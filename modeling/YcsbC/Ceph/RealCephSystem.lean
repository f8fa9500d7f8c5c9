import YcsbC.Ceph.RealCephDB
import YcsbC.Foundation.Interleaving
import YcsbC.Foundation.Transitions

/-!
# Clients, callbacks and `main` on the asynchronous Ceph back end

`main` starts the load threads, joins them, starts the transaction threads, joins them, and calls
`Close` and `HandleAllData` (`ycsbc.cc`). A call holds `mutex_` from its first step to its return;
librbd runs the completion callback of each submitted operation once, at any time after the
submission; `Close` waits on `async_op_cv` for `async_op_count` to become 0. Every step of a thread,
of a callback and of `main` is one transition, and they come in any order. An exception in a call
leaves the thread failed, so that `main` never joins it; a write callback that sees an error ends
the process.

## Main definitions

* `ClientThread`, `MainThread`, `RealCephSystem`: the states of the parties.
* `CephEvent`, `RealCephSystem.ClientMove`, `CallbackMove`, `MainMove`, `Step`: the transitions.

## Main results

* `RealCephSystem.runs_request`: a request that is served with no other step in between.
* `RealCephSystem.invariant`: the rule for invariants over a run. The call that holds `mutex_` keeps
  a ghost value.
-/

namespace YcsbC

variable {ι γ : Type}

/-- A client thread: between two requests, within one that holds `mutex_`, or ended by an
exception. -/
inductive ClientThread (ι : Type) where
  | idle (requests : List CephRequest)
  | running (r : CephRequest) (rest : Program (RealCephDB ι) (Option Status))
      (requests : List CephRequest)
  | failed

/-- The main thread: the threads of a phase run; `Close` is about to take `async_op_mutex`, to test
`async_op_count == 0`, to block, is blocked, has been woken; `wait_for_all_async_ops` has returned;
`rbd_close` has been called; `HandleAllData` runs. -/
inductive MainThread where
  | loading
  | transacting
  | closing
  | testing
  | blocking
  | blocked
  | woken
  | drained
  | closed
  | handling
  deriving DecidableEq, Repr

/-- `main` has joined the transaction threads. -/
def MainThread.joined : MainThread → Bool
  | loading => false
  | transacting => false
  | _ => true

/-- `wait_for_all_async_ops` has returned. -/
def MainThread.waited : MainThread → Bool
  | drained => true
  | closed => true
  | handling => true
  | _ => false

/-- The back end with all threads. -/
structure RealCephSystem (ι : Type) where
  db : RealCephDB ι
  mutex : Option ι
  client : ι → ClientThread ι
  main : MainThread
  exited : Bool

/-- Who takes a step, and which. The callback steps name the operation by its place in the order of
submission. -/
inductive CephEvent (ι : Type) where
  | lock (i : ι)
  | run (i : ι)
  | ret (i : ι)
  | throw (i : ι)
  | start (n : ℕ)
  | exit (n : ℕ)
  | free (n : ℕ)
  | decrement (n : ℕ)
  | notify (n : ℕ)
  | joinLoad
  | joinTransactions
  | lockAsync
  | test
  | block
  | rbdClose
  | handleAllData

namespace RealCephDB

/-- The state after the completion of an operation has moved on. -/
def complete (s : RealCephDB ι) (n : ℕ) (a : Aio ι) (c : Completion) : RealCephDB ι :=
  { s with aios := s.aios.set n { a with completion := c } }

/-- The state after a call has returned: its frame is gone. -/
def popFrame [DecidableEq ι] (s : RealCephDB ι) (i : ι) : RealCephDB ι :=
  { s with frame := Function.update s.frame i false }

/-- `free(buf)`. -/
def free (s : RealCephDB ι) (p : ℕ) : RealCephDB ι :=
  { s with heap := s.heap.free p, freed := p :: s.freed }

/-- `async_op_count--`. -/
def uncountAsyncOp (s : RealCephDB ι) : RealCephDB ι :=
  { s with asyncOpCount := s.asyncOpCount - 1 }

end RealCephDB

/-- What the completion of an operation has done when its callback decrements `async_op_count`. -/
def AioKind.beforeDecrement : AioKind ι → Completion
  | read _ => .freed
  | write _ => .started

/-- The body of a request of the thread `i`. -/
def CephRequest.program [DecidableEq ι] (i : ι) :
    CephRequest → Program (RealCephDB ι) (Option Status)
  | init flag => RealCephDB.init flag
  | call (.read key) => RealCephDB.read key
  | call (.update key) => RealCephDB.update i key
  | call (.insert key) => RealCephDB.insert i key
  | call (.scan _) => RealCephDB.scan
  | call (.delete _) => RealCephDB.delete

namespace RealCephSystem

/-- The program starts: the load threads are there with their requests. -/
def new (load : ι → List CephRequest) : RealCephSystem ι where
  db := .new
  mutex := none
  client i := .idle (load i)
  main := .loading
  exited := false

variable [DecidableEq ι]

/-- The transitions of the clients: take `mutex_`, take a step of the call, return, throw. -/
inductive ClientMove : RealCephSystem ι → CephEvent ι → RealCephSystem ι → Prop
  | lock {s i r rs} (hmutex : s.mutex = none) (hi : s.client i = .idle (r :: rs)) :
      ClientMove s (.lock i) { s with
        mutex := some i
        client := Function.update s.client i (.running r (r.program i) rs) }
  | run {s i r act cont rs} (hi : s.client i = .running r (.atom act cont) rs) :
      ClientMove s (.run i) { s with
        db := act s.db
        client := Function.update s.client i (.running r (cont s.db) rs) }
  | ret {s i r st rs} (hi : s.client i = .running r (pure (some st)) rs) :
      ClientMove s (.ret i) { s with
        db := s.db.popFrame i
        mutex := none
        client := Function.update s.client i (.idle rs) }
  | throw {s i r rs} (hi : s.client i = .running r (pure none) rs) :
      ClientMove s (.throw i) { s with
        db := s.db.popFrame i
        mutex := none
        client := Function.update s.client i .failed }

/-- The transitions of the completion callbacks: start, `exit(1)` of a write callback that sees an
error, `free(buf)` of a read callback, `async_op_count--` and `notify_all`. -/
inductive CallbackMove : RealCephSystem ι → CephEvent ι → RealCephSystem ι → Prop
  | start {s n a} (ha : s.db.aios[n]? = some a) (hc : a.completion = .pending) :
      CallbackMove s (.start n) { s with db := s.db.complete n a .started }
  | exit {s n a i} (ha : s.db.aios[n]? = some a) (hk : a.kind = .write i)
      (hc : a.completion = .started) :
      CallbackMove s (.exit n) { s with exited := true }
  | free {s n a p} (ha : s.db.aios[n]? = some a) (hk : a.kind = .read p)
      (hc : a.completion = .started) :
      CallbackMove s (.free n) { s with db := (s.db.free p).complete n a .freed }
  | decrement {s n a} (ha : s.db.aios[n]? = some a) (hc : a.completion = a.kind.beforeDecrement) :
      CallbackMove s (.decrement n) { s with db := s.db.uncountAsyncOp.complete n a .decremented }
  | notify {s n a} (ha : s.db.aios[n]? = some a) (hc : a.completion = .decremented) :
      CallbackMove s (.notify n) { s with
        db := s.db.complete n a .finished
        main := if s.main = .blocked then .woken else s.main }

/-- The transitions of `main`. -/
inductive MainMove (transactions : ι → List CephRequest) :
    RealCephSystem ι → CephEvent ι → RealCephSystem ι → Prop
  | joinLoad {s} (hmain : s.main = .loading) (hi : ∀ i, s.client i = .idle []) :
      MainMove transactions s .joinLoad { s with
        main := .transacting
        client := fun i => .idle (transactions i) }
  | joinTransactions {s} (hmain : s.main = .transacting) (hi : ∀ i, s.client i = .idle []) :
      MainMove transactions s .joinTransactions { s with main := .closing }
  | lockAsync {s} (hmain : s.main = .closing ∨ s.main = .woken) :
      MainMove transactions s .lockAsync { s with main := .testing }
  | test {s} (hmain : s.main = .testing) :
      MainMove transactions s .test
        { s with main := if s.db.asyncOpCount = 0 then .drained else .blocking }
  | block {s} (hmain : s.main = .blocking) :
      MainMove transactions s .block { s with main := .blocked }
  | rbdClose {s} (hmain : s.main = .drained) :
      MainMove transactions s .rbdClose { s with main := .closed }
  | handleAllData {s} (hmain : s.main = .closed) :
      MainMove transactions s .handleAllData { s with main := .handling }

/-- The transitions of the process, none once it has exited. -/
def Step (transactions : ι → List CephRequest) (s : RealCephSystem ι) (e : CephEvent ι)
    (s' : RealCephSystem ι) : Prop :=
  s.exited = false ∧ (ClientMove s e s' ∨ CallbackMove s e s' ∨ MainMove transactions s e s')

section MainMove

variable {s s' : RealCephSystem ι} {e : CephEvent ι} {transactions : ι → List CephRequest}

omit [DecidableEq ι] in
theorem MainMove.db_eq (h : MainMove transactions s e s') : s'.db = s.db ∧ s'.mutex = s.mutex := by
  cases h <;> exact ⟨rfl, rfl⟩

omit [DecidableEq ι] in
/-- The step by which `main` joins the load threads and starts the transactions. -/
theorem MainMove.of_loading (h : MainMove transactions s e s') (hmain : s.main = .loading) :
    (∀ i, s.client i = .idle []) ∧ s'.main = .transacting ∧
      s'.client = fun i => .idle (transactions i) := by
  cases h with
  | joinLoad _ hi => exact ⟨hi, rfl, rfl⟩
  | lockAsync hs => rcases hs with hs | hs <;> cases hmain.symm.trans hs
  | _ hs => cases hmain.symm.trans hs

omit [DecidableEq ι] in
/-- After that step the threads have been joined already, or the step is to join them. -/
theorem MainMove.of_ne_loading (h : MainMove transactions s e s') (hmain : s.main ≠ .loading) :
    s'.main ≠ .loading ∧ s'.client = s.client ∧ (s.main.joined ∨ ∀ i, s.client i = .idle []) := by
  cases h with
  | joinLoad hs _ => exact absurd hs hmain
  | joinTransactions _ hi => exact ⟨nofun, rfl, .inr hi⟩
  | lockAsync hs => exact ⟨nofun, rfl, .inl (by rcases hs with hs | hs <;> rw [hs] <;> rfl)⟩
  | test hs =>
    refine ⟨?_, rfl, .inl (by rw [hs]; rfl)⟩
    show (if s.db.asyncOpCount = 0 then MainThread.drained else .blocking) ≠ .loading
    split_ifs <;> nofun
  | _ hs => exact ⟨nofun, rfl, .inl (by rw [hs]; rfl)⟩

end MainMove

omit [DecidableEq ι] in
theorem CallbackMove.threads {s s' : RealCephSystem ι} {e : CephEvent ι}
    (h : CallbackMove s e s') :
    s'.client = s.client ∧ s'.mutex = s.mutex ∧ s'.main.joined = s.main.joined ∧
      s'.main.waited = s.main.waited := by
  cases h with
  | notify ha hc =>
    refine ⟨rfl, rfl, ?_, ?_⟩
    · show (if s.main = .blocked then MainThread.woken else s.main).joined = _
      split_ifs with hblocked
      · rw [hblocked]
        rfl
      · rfl
    · show (if s.main = .blocked then MainThread.woken else s.main).waited = _
      split_ifs with hblocked
      · rw [hblocked]
        rfl
      · rfl
  | _ => exact ⟨rfl, rfl, rfl, rfl⟩

section Runs

variable {ok : RealCephSystem ι → CephEvent ι → Prop} {transactions : ι → List CephRequest}
  {s₀ s s' : RealCephSystem ι} {e : CephEvent ι}

theorem runs_client (h : Runs (Step transactions) ok s₀ s) (hok : ok s e) (hs : s.exited = false)
    (hmove : ClientMove s e s') : Runs (Step transactions) ok s₀ s' :=
  h.step hok ⟨hs, .inl hmove⟩

theorem runs_callback (h : Runs (Step transactions) ok s₀ s) (hok : ok s e)
    (hs : s.exited = false) (hmove : CallbackMove s e s') : Runs (Step transactions) ok s₀ s' :=
  h.step hok ⟨hs, .inr (.inl hmove)⟩

theorem runs_main (h : Runs (Step transactions) ok s₀ s) (hok : ok s e) (hs : s.exited = false)
    (hmove : MainMove transactions s e s') : Runs (Step transactions) ok s₀ s' :=
  h.step hok ⟨hs, .inr (.inr hmove)⟩

section Alone

variable {i : ι} {r : CephRequest} {rs : List CephRequest}
  {p : Program (RealCephDB ι) (Option Status)}

/-- The running call comes to its end with no other step in between. -/
theorem runs_program (hok : ∀ s, ok s (.run i)) (h : Runs (Step transactions) ok s₀ s)
    (hs : s.exited = false) (hi : s.client i = .running r p rs) :
    Runs (Step transactions) ok s₀ { s with
      db := (p.run s.db).2
      client := Function.update s.client i (.running r (pure (p.run s.db).1) rs) } := by
  induction p generalizing s with
  | done a =>
    have hsame : Function.update s.client i (.running r (pure a) rs) = s.client := by
      rw [Function.update_eq_self_iff, hi]
      rfl
    show Runs (Step transactions) ok s₀ { s with
      db := s.db
      client := Function.update s.client i (.running r (pure a) rs) }
    rw [hsame]
    exact h
  | atom act cont ih =>
    have hrest := ih s.db (runs_client h (hok s) hs (.run hi)) hs (Function.update_self ..)
    simp only [Function.update_idem] at hrest
    exact hrest

/-- A request is served from the lock to the return with no other step in between. -/
theorem runs_request (hok : ∀ s, ok s (.lock i) ∧ ok s (.run i) ∧ ok s (.ret i)) {st : Status}
    (h : Runs (Step transactions) ok s₀ s) (hs : s.exited = false) (hmutex : s.mutex = none)
    (hi : s.client i = .idle (r :: rs)) (hr : ((r.program i).run s.db).1 = some st) :
    Runs (Step transactions) ok s₀ { s with
      db := ((r.program i).run s.db).2.popFrame i
      mutex := none
      client := Function.update s.client i (.idle rs) } := by
  have hlock := runs_client h (hok s).1 hs (.lock hmutex hi)
  have hend := runs_program (fun s => (hok s).2.1) hlock hs (Function.update_self ..)
  have hdone : Function.update (Function.update s.client i (.running r (r.program i) rs)) i
      (.running r (pure ((r.program i).run s.db).1) rs) i = .running r (pure (some st)) rs := by
    rw [Function.update_self, hr]
  have hret := runs_client hend (hok _).2.2 hs (.ret hdone)
  simp only [Function.update_idem] at hret
  exact hret

end Alone

end Runs

/-! ### Invariants -/

/-- The call that holds `mutex_` follows a protocol from the ghost value `g`, which is `idle`
between the calls. -/
structure Tracks (idle : γ) (allowed : ι → CephRequest → γ → RealCephDB ι → Prop)
    (move : ι → CephRequest → γ → RealCephDB ι → γ → RealCephDB ι → Prop)
    (post : ι → CephRequest → γ → Option Status → Prop) (s : RealCephSystem ι) (g : γ) : Prop where
  idle : s.mutex = none → g = idle
  owner : ∀ i r p rs, s.client i = .running r p rs → s.mutex = some i
  running : ∀ i, s.mutex = some i → ∃ r p rs, s.client i = .running r p rs
  obeys : ∀ i r p rs, s.client i = .running r p rs → p.Obeys (allowed i r) (move i r) (post i r) g

section Invariant

variable {idle : γ} {allowed : ι → CephRequest → γ → RealCephDB ι → Prop}
  {move : ι → CephRequest → γ → RealCephDB ι → γ → RealCephDB ι → Prop}
  {post : ι → CephRequest → γ → Option Status → Prop} {I : RealCephSystem ι → γ → Prop}
  {ok : RealCephSystem ι → CephEvent ι → Prop}
  {load transactions : ι → List CephRequest} {s : RealCephSystem ι}

omit [DecidableEq ι] in
/-- When all threads have ended normally, `mutex_` is free. -/
theorem Tracks.mutex_eq_none {g : γ} (h : Tracks idle allowed move post s g)
    (hi : ∀ i, s.client i = .idle []) : s.mutex = none := by
  rw [Option.eq_none_iff_forall_ne_some]
  intro i hmutex
  obtain ⟨r, p, rs, hrun⟩ := h.running i hmutex
  cases (hi i).symm.trans hrun

omit [DecidableEq ι] in
/-- Callbacks and `main` leave `mutex_` and the calls alone. -/
theorem Tracks.of_eq {g : γ} (h : Tracks idle allowed move post s g) {s' : RealCephSystem ι}
    (hmutex : s'.mutex = s.mutex) (hclient : s'.client = s.client) :
    Tracks idle allowed move post s' g :=
  ⟨hmutex ▸ h.idle, hmutex ▸ hclient ▸ h.owner, hmutex ▸ hclient ▸ h.running,
    hclient ▸ h.obeys⟩

omit [DecidableEq ι] in
theorem Tracks.not_running {g : γ} (h : Tracks idle allowed move post s g) {i : ι}
    (hmutex : s.mutex ≠ some i) (r : CephRequest) (p : Program (RealCephDB ι) (Option Status))
    (rs : List CephRequest) : s.client i ≠ .running r p rs :=
  fun hi => hmutex (h.owner i r p rs hi)

omit [DecidableEq ι] in
theorem tracks_start (s : RealCephSystem ι) (hmutex : s.mutex = none)
    (hclient : ∀ i r p rs, s.client i ≠ .running r p rs) :
    Tracks idle allowed move post s idle :=
  ⟨fun _ => rfl, fun i r p rs hi => absurd hi (hclient i r p rs),
    fun _ hi => absurd (hmutex.symm.trans hi) (Option.some_ne_none _).symm,
    fun i r p rs hi => absurd hi (hclient i r p rs)⟩

/-- The thread `i`, which holds `mutex_` now, goes on with `p`. -/
theorem Tracks.go_on {g g' : γ} (h : Tracks idle allowed move post s g) {s' : RealCephSystem ι}
    {i : ι} {r : CephRequest} {p : Program (RealCephDB ι) (Option Status)}
    {rs : List CephRequest} (hothers : ∀ j, j ≠ i → s.mutex ≠ some j) (hmutex : s'.mutex = some i)
    (hclient : s'.client = Function.update s.client i (.running r p rs))
    (hp : p.Obeys (allowed i r) (move i r) (post i r) g') :
    Tracks idle allowed move post s' g' := by
  have hi : s'.client i = .running r p rs := by rw [hclient, Function.update_self]
  have heq : ∀ j r' p' rs', s'.client j = .running r' p' rs' → j = i := by
    intro j r' p' rs' hj
    by_contra hne
    rw [hclient, Function.update_of_ne hne] at hj
    exact h.not_running (hothers j hne) r' p' rs' hj
  refine ⟨fun hnone => ?_, fun j r' p' rs' hj => ?_, fun j hj => ?_, fun j r' p' rs' hj => ?_⟩
  · cases hmutex.symm.trans hnone
  · rw [heq j r' p' rs' hj, hmutex]
  · cases hmutex.symm.trans hj
    exact ⟨_, _, _, hi⟩
  · obtain rfl := heq j r' p' rs' hj
    cases hi.symm.trans hj
    exact hp

/-- The thread `i`, which has held `mutex_`, is no longer within a call. -/
theorem Tracks.finish {g : γ} (h : Tracks idle allowed move post s g) {s' : RealCephSystem ι}
    {i : ι} {c : ClientThread ι} (hi : s.mutex = some i) (hmutex : s'.mutex = none)
    (hclient : s'.client = Function.update s.client i c)
    (hc : ∀ r p rs, c ≠ .running r p rs) : Tracks idle allowed move post s' idle := by
  refine tracks_start s' hmutex fun j r p rs hj => ?_
  rw [hclient] at hj
  by_cases hji : j = i
  · rw [hji, Function.update_self] at hj
    exact hc r p rs hj
  · rw [Function.update_of_ne hji] at hj
    refine h.not_running (fun hc => hji ?_) r p rs hj
    exact Option.some.inj (hc.symm.trans hi)

/-- **Invariants over a run.** The invariant relates the state to the ghost value of the call that
holds `mutex_`; it has to survive each kind of step. -/
theorem invariant (h : Runs (Step transactions) ok (new load) s) (h₀ : I (new load) idle)
    (hlock : ∀ s i r rs, I s idle → ok s (.lock i) → s.mutex = none →
      s.client i = .idle (r :: rs) →
      ∃ g, (r.program i).Obeys (allowed i r) (move i r) (post i r) g ∧
        I { s with
          mutex := some i
          client := Function.update s.client i (.running r (r.program i) rs) } g)
    (hallowed : ∀ s g i r p rs, I s g → s.mutex = some i → s.client i = .running r p rs →
      allowed i r g s.db)
    (hrun : ∀ s g i r p rs g' db' p', I s g → s.mutex = some i →
      s.client i = .running r p rs → move i r g s.db g' db' →
        I { s with
          db := db'
          client := Function.update s.client i (.running r p' rs) } g')
    (hret : ∀ s g i r p rs st, I s g → ok s (.ret i) → s.mutex = some i →
      s.client i = .running r p rs → post i r g (some st) →
        I { s with
          db := s.db.popFrame i
          mutex := none
          client := Function.update s.client i (.idle rs) } idle)
    (hthrow : ∀ s g i r p rs, I s g → ok s (.throw i) → s.mutex = some i →
      s.client i = .running r p rs → post i r g none →
        I { s with
          db := s.db.popFrame i
          mutex := none
          client := Function.update s.client i .failed } idle)
    (hcallback : ∀ s g e s', I s g → ok s e → CallbackMove s e s' → I s' g)
    (hmain : ∀ s g e s', I s g → Tracks idle allowed move post s g → ok s e →
      MainMove transactions s e s' → I s' g) :
    ∃ g, I s g ∧ Tracks idle allowed move post s g := by
  refine Runs.invariant (I := fun s => ∃ g, I s g ∧ Tracks idle allowed move post s g) h
    ⟨idle, h₀, tracks_start _ rfl fun _ _ _ _ hi => by cases hi⟩ ?_
  rintro s e s' - ⟨g, hinv, htracks⟩ hok ⟨-, hclient | hback | hmove⟩
  · cases hclient with
    | @lock i r rs hmutex hi =>
      obtain rfl := htracks.idle hmutex
      obtain ⟨g', hobeys, hinv'⟩ := hlock s i r rs hinv hok hmutex hi
      have hothers : ∀ j, j ≠ i → s.mutex ≠ some j := fun j _ => by simp [hmutex]
      exact ⟨g', hinv', htracks.go_on hothers rfl rfl hobeys⟩
    | @run i r act cont rs hi =>
      have hmutex := htracks.owner i _ _ _ hi
      obtain ⟨g', hm, hcont⟩ := htracks.obeys i _ _ _ hi s.db (hallowed s g i _ _ _ hinv hmutex hi)
      have hothers : ∀ j, j ≠ i → s.mutex ≠ some j := fun j hj hc =>
        hj (Option.some.inj (hc.symm.trans hmutex))
      exact ⟨g', hrun s g i _ _ _ g' _ _ hinv hmutex hi hm,
        htracks.go_on hothers hmutex rfl hcont⟩
    | @ret i r st rs hi =>
      have hmutex := htracks.owner i _ _ _ hi
      exact ⟨idle, hret s g i _ _ _ st hinv hok hmutex hi (htracks.obeys i _ _ _ hi),
        htracks.finish hmutex rfl rfl fun _ _ _ hc => by cases hc⟩
    | @throw i r rs hi =>
      have hmutex := htracks.owner i _ _ _ hi
      exact ⟨idle, hthrow s g i _ _ _ hinv hok hmutex hi (htracks.obeys i _ _ _ hi),
        htracks.finish hmutex rfl rfl fun _ _ _ hc => by cases hc⟩
  · refine ⟨g, hcallback s g e s' hinv hok hback, ?_⟩
    cases hback <;> exact htracks.of_eq rfl rfl
  · refine ⟨g, hmain s g e s' hinv htracks hok hmove, ?_⟩
    cases hmove with
    | joinLoad hload hi =>
      have hmutex := htracks.mutex_eq_none hi
      rw [htracks.idle hmutex]
      exact tracks_start _ hmutex fun _ _ _ _ hj => by cases hj
    | _ => exact htracks.of_eq rfl rfl

end Invariant

end RealCephSystem

end YcsbC
