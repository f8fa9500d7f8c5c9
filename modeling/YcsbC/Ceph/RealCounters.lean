import YcsbC.Ceph.LostWakeup
import YcsbC.Ceph.MmapCounters

/-!
# The counters of the asynchronous Ceph back end

A call of `RealCephDB` pays what is due for it in two steps, with other steps between them and
callbacks at any time. The call that holds `mutex_` keeps an account: the phase, which no other
thread can change, and what it is still to add.

## Main definitions

* `RealCephDB.tally`: the counters.
* `Account`, `RealCephDB.Pays`: what the running call is to add, and a step of it.
* `RealCephSystem.Loading`, `RealCephSystem.Transacting`: the invariants of the two stages.

## Main results

* `RealCephSystem.counters`: the counters during the load, when `HandleAllData` runs, and in
  between.
-/

namespace YcsbC

variable {ι : Type}

/-- The account of the call that holds `mutex_`: the phase, and what it is still to add. -/
structure Account where
  phase : Option Phase
  due : Due

/-- No call is running. -/
def Account.idle : Account := ⟨none, .nothing⟩

namespace RealCephDB

/-- The counters. -/
def tally (s : RealCephDB ι) : Counter → ℕ
  | .ops => s.ops
  | .time v => s.times v

/-- The account knows the phase. -/
def Knows (g : Account) (s : RealCephDB ι) : Prop := g.phase = some s.phase

/-- A step of the request `r`. A step with nothing due changes the phase at most. -/
structure Pays (r : CephRequest) (g : Account) (s : RealCephDB ι) (g' : Account)
    (s' : RealCephDB ι) : Prop where
  tally : ∀ k, s'.tally k + g'.due.amount k = s.tally k + g.due.amount k
  phase : s'.phase = r.phaseAfter s.phase
  knows : Knows g' s'
  quiet : g.due = .nothing → g'.due = .nothing ∧ s' = { s with phase := s'.phase }

/-- At its end a request has paid, and `Init` has set the phase; a call that throws has not paid,
and its key holds no number. -/
def Paid (r : CephRequest) (g : Account) (res : Option Status) : Prop :=
  (∀ st, res = some st →
    g.due = .nothing ∧ ∀ flag, r = .init flag → g.phase = some (r.phaseAfter .invalid)) ∧
  (res = none → g.due ≠ .nothing ∧ ∃ c, r = .call c ∧ realKey c.key = none)

/-- A program of the request `r` that pays what the account says. -/
abbrev PayObeys {α : Type} (r : CephRequest) (g : Account) (p : Program (RealCephDB ι) α)
    (post : Account → α → Prop) : Prop :=
  p.Obeys Knows (Pays r) post g

open Program

section Calls

variable {α β : Type} {c : CephCall} {phase : Option Phase} {due : Due}
  {post : Account → α → Prop}

/-- A step of a call that is to take its time yet, which leaves the counters and the phase alone. -/
theorem payObeys_atomic_bind {v : TimeVector} {f : RealCephDB ι → β × RealCephDB ι}
    {k : β → Program (RealCephDB ι) α}
    (hf : ∀ s, (f s).2.ops = s.ops ∧ (f s).2.times = s.times ∧ (f s).2.phase = s.phase)
    (hk : ∀ b, PayObeys (.call c) ⟨phase, .time v⟩ (k b) post) :
    PayObeys (.call c) ⟨phase, .time v⟩ (atomic f >>= k) post := by
  refine obeys_atomic_bind fun s hs =>
    ⟨⟨phase, .time v⟩, ⟨fun k => ?_, (hf s).2.2, ?_, nofun⟩, hk _⟩
  · cases k with
    | ops => exact congrArg (· + _) (hf s).1
    | time w => exact congrArg (· + _) (congrFun (hf s).2.1 w)
  · show phase = some (f s).2.phase
    rw [(hf s).2.2]
    exact hs

theorem payObeys_getPhase_bind {p : Phase} {k : Phase → Program (RealCephDB ι) α}
    (hk : PayObeys (.call c) ⟨some p, due⟩ (k p) post) :
    PayObeys (.call c) ⟨some p, due⟩ (getPhase >>= k) post := by
  refine obeys_atomic_bind fun s hs => ⟨⟨some p, due⟩, ⟨fun _ => rfl, rfl, hs, ?_⟩, ?_⟩
  · exact fun hd => ⟨hd, rfl⟩
  · obtain rfl : p = s.phase := Option.some.inj hs
    exact hk

theorem payObeys_countOp_bind {v : TimeVector} {k : Unit → Program (RealCephDB ι) α}
    (hk : PayObeys (.call c) ⟨phase, .time v⟩ (k ()) post) :
    PayObeys (.call c) ⟨phase, .call v⟩ (countOp >>= k) post := by
  refine obeys_atomic_bind fun s hs => ⟨⟨phase, .time v⟩, ⟨fun k => ?_, rfl, hs, nofun⟩, hk⟩
  cases k with
  | ops => rfl
  | time w => rfl

theorem payObeys_pushTime (v : TimeVector) :
    PayObeys (ι := ι) (.call c) ⟨phase, .time v⟩ (do
      pushTime v
      pure (some .kOK)) (Paid (.call c)) := by
  refine obeys_atomic_bind fun s hs => ⟨⟨phase, .nothing⟩, ⟨fun k => ?_, rfl, hs, nofun⟩, ?_⟩
  · cases k with
    | ops => rfl
    | time w => exact grow_apply s.times v w
  · exact obeys_pure ⟨fun _ _ => ⟨rfl, nofun⟩, nofun⟩

/-- The exception of a call whose key holds no number. -/
theorem payObeys_throw {g : Account} (hdue : g.due ≠ .nothing) (hkey : realKey c.key = none) :
    PayObeys (ι := ι) (.call c) g (pure none) (Paid (.call c)) :=
  obeys_pure ⟨nofun, fun _ => ⟨hdue, c, rfl, hkey⟩⟩

theorem payObeys_read (phase : Option Phase) (key : Str) :
    PayObeys (ι := ι) (.call (.read key)) ⟨phase, .call .readTime⟩ (read key)
      (Paid (.call (.read key))) := by
  refine payObeys_countOp_bind (payObeys_atomic_bind (fun _ => ⟨rfl, rfl, rfl⟩) fun buff => ?_)
  cases hkey : realKey key with
  | none => exact payObeys_throw nofun hkey
  | some n =>
    refine payObeys_atomic_bind (fun _ => ⟨rfl, rfl, rfl⟩) fun _ => ?_
    exact payObeys_atomic_bind (fun _ => ⟨rfl, rfl, rfl⟩) fun _ => payObeys_pushTime _

variable [DecidableEq ι]

theorem payObeys_writeBlock {v : TimeVector} (i : ι) (key : Str)
    {k : Bool → Program (RealCephDB ι) α}
    (hk : ∀ b, (b = false → realKey key = none) →
      PayObeys (.call c) ⟨phase, .time v⟩ (k b) post) :
    PayObeys (.call c) ⟨phase, .time v⟩ (writeBlock i key >>= k) post := by
  rw [writeBlock, bind_assoc]
  refine payObeys_atomic_bind (fun _ => ⟨rfl, rfl, rfl⟩) fun _ => ?_
  cases hkey : realKey key with
  | none => exact hk false fun _ => hkey
  | some n =>
    simp only [bind_assoc]
    refine payObeys_atomic_bind (fun _ => ⟨rfl, rfl, rfl⟩) fun _ => ?_
    exact payObeys_atomic_bind (fun _ => ⟨rfl, rfl, rfl⟩) fun _ => hk true nofun

theorem payObeys_update (i : ι) (phase : Option Phase) (key : Str) :
    PayObeys (.call (.update key)) ⟨phase, .call .updateTime⟩ (update i key)
      (Paid (.call (.update key))) := by
  refine payObeys_countOp_bind (payObeys_writeBlock i key fun b hb => ?_)
  cases b with
  | false => exact payObeys_throw nofun (hb rfl)
  | true => exact payObeys_pushTime _

theorem payObeys_insert_transaction (i : ι) (key : Str) :
    PayObeys (.call (.insert key)) ⟨some .transaction, .call .insertTime⟩ (insert i key)
      (Paid (.call (.insert key))) := by
  refine payObeys_getPhase_bind ?_
  simp only [reduceCtorEq, or_self, if_false]
  rw [countInsert, bind_assoc]
  refine payObeys_getPhase_bind ?_
  simp only [if_true]
  refine payObeys_countOp_bind (payObeys_writeBlock i key fun b hb => ?_)
  cases b with
  | false => exact payObeys_throw nofun (hb rfl)
  | true =>
    simp only [if_true]
    rw [pushInsertTime, bind_assoc]
    refine payObeys_getPhase_bind ?_
    simp only [if_true]
    exact payObeys_pushTime _

/-- `Insert` in another phase. -/
theorem payObeys_insert_load (i : ι) {p : Phase} (hp : p ≠ .transaction) (key : Str) :
    PayObeys (.call c) ⟨some p, .nothing⟩ (insert i key) (Paid (.call c)) := by
  have hload : p = .invalid ∨ p = .load := by
    cases p with
    | transaction => exact absurd rfl hp
    | invalid => exact .inl rfl
    | load => exact .inr rfl
  refine payObeys_getPhase_bind ?_
  rw [if_pos hload]
  exact obeys_pure ⟨fun _ _ => ⟨rfl, nofun⟩, nofun⟩

/-- Every request pays what is due for it in the current phase. -/
theorem payObeys_program (i : ι) (r : CephRequest) (p : Phase) :
    PayObeys r ⟨some p, r.dueIn p⟩ (r.program i) (Paid r) := by
  cases r with
  | init flag =>
    refine obeys_atomic fun s _ =>
      ⟨⟨some (if flag then .load else .transaction), .nothing⟩, ⟨?_, rfl, rfl, fun _ => ⟨rfl, rfl⟩⟩,
        fun _ _ => ⟨rfl, fun _ _ => rfl⟩, nofun⟩
    exact fun k => by cases k <;> rfl
  | call c =>
    cases c with
    | read key => exact payObeys_read _ key
    | update key => exact payObeys_update i _ key
    | insert key =>
      by_cases hp : p = .transaction
      · rw [hp]
        exact payObeys_insert_transaction i key
      · have hdue : (CephRequest.call (.insert key)).dueIn p = .nothing := if_neg hp
        rw [hdue]
        exact payObeys_insert_load i hp key
    | scan key => exact payObeys_countOp_bind (payObeys_pushTime _)
    | delete key => exact payObeys_countOp_bind (payObeys_pushTime _)

end Calls

end RealCephDB

/-- What a thread has left after the request that it runs. -/
def ClientThread.requests : ClientThread ι → List CephRequest
  | idle requests => requests
  | running _ _ requests => requests
  | failed => []

/-- The requests of a thread, the one that it runs among them, have the property. -/
def ClientThread.Has (P : List CephRequest → Prop) (c : ClientThread ι) : Prop :=
  (∃ rs, c = .idle rs ∧ P rs) ∨ ∃ r p rs, c = .running r p rs ∧ P (r :: rs)

/-- An idle thread has what it has left. -/
theorem ClientThread.Has.of_idle {P : List CephRequest → Prop} {c : ClientThread ι}
    {rs : List CephRequest} (h : c.Has P) (hc : c = .idle rs) : P rs := by
  subst hc
  rcases h with ⟨rs', hrs, h⟩ | ⟨r, p, rs', hrs, -⟩
  · cases hrs
    exact h
  · cases hrs

theorem ClientThread.Has.of_running {P : List CephRequest → Prop} {c : ClientThread ι}
    {r : CephRequest} {p : Program (RealCephDB ι) (Option Status)} {rs : List CephRequest}
    (h : c.Has P) (hc : c = .running r p rs) : P (r :: rs) := by
  subst hc
  rcases h with ⟨rs', hrs, -⟩ | ⟨r', p', rs', hrs, h⟩
  · cases hrs
  · cases hrs
    exact h

namespace RealCephSystem

open RealCephDB

/-- While the load threads run, only the phase has changed. -/
structure Loading (s : RealCephSystem ι) (g : Account) : Prop where
  main : s.main = .loading
  db : s.db = { RealCephDB.new with phase := s.db.phase }
  phase : s.db.phase ≠ .transaction
  due : g.due = .nothing
  client : ∀ i, (s.client i).Has fun rs => ∀ r ∈ rs, r.IsLoading

/-- From then on, what has been counted, what the running call is to add and what the threads owe
make up the debt of all calls, as long as every call has returned. -/
structure Transacting [Fintype ι] (calls : ι → List CephCall) (s : RealCephSystem ι) (g : Account) :
    Prop where
  main : s.main ≠ .loading
  client : ∀ i, (s.client i).Has (Ahead (calls i) s.db.phase)
  tally : ∀ k, s.db.tally k + g.due.amount k + owingAll (fun i => (s.client i).requests) k =
    owingAll (fun i => transactionRequests (calls i)) k
  joined : s.main.joined → ∀ i, s.client i = .idle []

/-- A thread has failed, which `main` is never to join: a key of its calls holds no number. -/
def SomeFailed (calls : ι → List CephCall) (s : RealCephSystem ι) : Prop :=
  s.main = .transacting ∧ ∃ i, s.client i = .failed ∧ ∃ c ∈ calls i, realKey c.key = none

/-- The counters are in order, or a thread has failed. -/
def InOrder [Fintype ι] (calls : ι → List CephCall) (s : RealCephSystem ι) (g : Account) : Prop :=
  (s.mutex ≠ none → Knows g s.db) ∧ (Loading s g ∨ Transacting calls s g ∨ SomeFailed calls s)

variable {s s' : RealCephSystem ι} {g g' : Account} {e : CephEvent ι}

theorem loading_new (keys : ι → List Str) :
    Loading (new fun i => loadRequests (keys i)) .idle where
  main := rfl
  db := rfl
  phase := by simp [new, RealCephDB.new]
  due := rfl
  client i := .inl ⟨_, rfl, fun _ => isLoading_of_mem_loadRequests⟩

theorem CallbackMove.tally (h : CallbackMove s e s') :
    (∀ k, s'.db.tally k = s.db.tally k) ∧ s'.db.phase = s.db.phase := by
  cases h <;> exact ⟨fun k => by cases k <;> rfl, rfl⟩

variable [DecidableEq ι]

theorem requests_update (client : ι → ClientThread ι) (i : ι) (c : ClientThread ι) :
    (fun j => (Function.update client i c j).requests) =
      Function.update (fun j => (client j).requests) i c.requests := by
  funext j
  exact Function.apply_update (fun _ c => ClientThread.requests c) client i c j

/-- A step within a request leaves the requests of all threads as they were. -/
theorem requests_update_of_eq {client : ι → ClientThread ι} {i : ι} {c : ClientThread ι}
    (h : c.requests = (client i).requests) :
    (fun j => (Function.update client i c j).requests) = fun j => (client j).requests := by
  rw [requests_update, h, Function.update_eq_self]

theorem has_update {P P' : ι → List CephRequest → Prop} {client : ι → ClientThread ι}
    (h : ∀ i, (client i).Has (P i)) (hP : ∀ i rs, P i rs → P' i rs) {i : ι} {c : ClientThread ι}
    (hc : c.Has (P' i)) (j : ι) : (Function.update client i c j).Has (P' j) := by
  by_cases hj : j = i
  · rw [hj, Function.update_self]
    exact hc
  · rw [Function.update_of_ne hj]
    exact (h j).imp (fun ⟨rs, hrs, hp⟩ => ⟨rs, hrs, hP _ _ hp⟩)
      fun ⟨r, p, rs, hrs, hp⟩ => ⟨r, p, rs, hrs, hP _ _ hp⟩

/-! ### The steps -/

section Steps

variable [Fintype ι] {calls : ι → List CephCall} {i : ι} {r : CephRequest}
  {rs : List CephRequest} {p p' : Program (RealCephDB ι) (Option Status)}

omit [DecidableEq ι] in
/-- A thread within a call has not been joined. -/
theorem Transacting.main_eq (h : Transacting calls s g) (hi : s.client i ≠ .idle []) :
    s.main = .transacting := by
  have hjoined : ¬ s.main.joined := fun hj => hi (h.joined hj i)
  cases hmain : s.main with
  | loading => exact absurd hmain h.main
  | transacting => rfl
  | _ =>
    rw [hmain] at hjoined
    exact absurd rfl hjoined

omit [Fintype ι] in
/-- A thread that has failed stays so when another one takes a step. -/
theorem SomeFailed.update {c : ClientThread ι} (h : SomeFailed calls s)
    (hi : s.client i ≠ .failed) (hmain : s'.main = s.main)
    (hclient : s'.client = Function.update s.client i c) : SomeFailed calls s' := by
  obtain ⟨htransacting, j, hj, hkey⟩ := h
  refine ⟨hmain.trans htransacting, j, ?_, hkey⟩
  rw [hclient, Function.update_of_ne, hj]
  rintro rfl
  exact hi hj

theorem InOrder.lock (h : InOrder calls s .idle) (hi : s.client i = .idle (r :: rs)) :
    InOrder calls { s with
      mutex := some i
      client := Function.update s.client i (.running r p rs) }
      ⟨some s.db.phase, r.dueIn s.db.phase⟩ := by
  refine ⟨fun _ => rfl, ?_⟩
  rcases h.2 with hload | htransacting | hfailed
  · have hloading := (hload.client i).of_idle hi
    refine .inl ⟨hload.main, hload.db, hload.phase, ?_, ?_⟩
    · exact ((hloading r List.mem_cons_self).dueIn hload.phase).1
    · exact has_update hload.client (fun _ _ => id) (.inr ⟨r, p, rs, rfl, hloading⟩)
  · have hahead := (htransacting.client i).of_idle hi
    refine .inr (.inl ⟨htransacting.main, ?_, fun k => ?_, fun hj => ?_⟩)
    · exact has_update htransacting.client (fun _ _ => id) (.inr ⟨r, p, rs, rfl, hahead⟩)
    · have hupdate := owingAll_update (fun j => (s.client j).requests) i rs k
      have hown : (s.client i).requests = r :: rs := by
        rw [hi]
        rfl
      have htotal : s.db.tally k + 0 + owingAll (fun j => (s.client j).requests) k = _ :=
        htransacting.tally k
      rw [hown, owing_cons] at hupdate
      rw [requests_update, hahead.cons.1]
      show s.db.tally k + r.due.amount k +
        owingAll (Function.update (fun j => (s.client j).requests) i rs) k = _
      omega
    · cases (htransacting.joined hj i).symm.trans hi
  · exact .inr (.inr (hfailed.update (by simp [hi]) rfl rfl))

theorem InOrder.run {db' : RealCephDB ι} (h : InOrder calls s g)
    (hi : s.client i = .running r p rs) (hm : Pays r g s.db g' db') :
    InOrder calls { s with
      db := db'
      client := Function.update s.client i (.running r p' rs) } g' := by
  refine ⟨fun _ => hm.knows, ?_⟩
  rcases h.2 with hload | htransacting | hfailed
  · have hloading := (hload.client i).of_running hi
    obtain ⟨hdue, hsame⟩ := hm.quiet hload.due
    refine .inl ⟨hload.main, ?_, ?_, hdue, ?_⟩
    · show db' = { RealCephDB.new with phase := db'.phase }
      rw [hsame, hload.db]
    · show db'.phase ≠ .transaction
      rw [hm.phase]
      exact ((hloading r List.mem_cons_self).dueIn hload.phase).2
    · exact has_update hload.client (fun _ _ => id) (.inr ⟨r, p', rs, rfl, hloading⟩)
  · have hahead := (htransacting.client i).of_running hi
    have hphase : db'.phase = .transaction := hm.phase.trans hahead.cons.2.1
    refine .inr (.inl ⟨htransacting.main, ?_, fun k => ?_, fun hj => ?_⟩)
    · show ∀ j, (Function.update s.client i (.running r p' rs) j).Has (Ahead (calls j) db'.phase)
      rw [hphase]
      exact has_update htransacting.client (fun _ _ => Ahead.of_transaction)
        (.inr ⟨r, p', rs, rfl, hahead.of_transaction⟩)
    · have hown : (.running r p' rs : ClientThread ι).requests = (s.client i).requests := by
        rw [hi]
        rfl
      have htotal := htransacting.tally k
      have hpaid := hm.tally k
      show db'.tally k + g'.due.amount k +
        owingAll (fun j => (Function.update s.client i (.running r p' rs) j).requests) k = _
      rw [requests_update_of_eq hown]
      omega
    · cases (htransacting.joined hj i).symm.trans hi
  · exact .inr (.inr (hfailed.update (by simp [hi]) rfl rfl))

theorem InOrder.ret {st : Status} (h : InOrder calls s g) (hmutex : s.mutex = some i)
    (hi : s.client i = .running r p rs) (hpost : Paid r g (some st)) :
    InOrder calls { s with
      db := s.db.popFrame i
      mutex := none
      client := Function.update s.client i (.idle rs) } .idle := by
  obtain ⟨hdue, hinit⟩ := hpost.1 st rfl
  refine ⟨fun hne => absurd rfl hne, ?_⟩
  rcases h.2 with hload | htransacting | hfailed
  · have hloading := (hload.client i).of_running hi
    refine .inl ⟨hload.main, ?_, hload.phase, rfl, ?_⟩
    · have hframe : s.db.frame i = false := by
        rw [hload.db]
        rfl
      have hpop : s.db.popFrame i = s.db := by
        rw [popFrame, ← hframe, Function.update_eq_self]
      show s.db.popFrame i = { RealCephDB.new with phase := s.db.phase }
      rw [hpop]
      exact hload.db
    · exact has_update hload.client (fun _ _ => id)
        (.inl ⟨rs, rfl, fun r' hr' => hloading r' (List.mem_cons_of_mem _ hr')⟩)
  · have hahead := (htransacting.client i).of_running hi
    have hknows : g.phase = some s.db.phase := h.1 (by simp [hmutex])
    refine .inr (.inl ⟨htransacting.main, ?_, fun k => ?_, fun hj => ?_⟩)
    · exact has_update htransacting.client (fun _ _ => id)
        (.inl ⟨rs, rfl, hahead.tail fun flag hr =>
          Option.some.inj (hknows.symm.trans (hinit flag hr))⟩)
    · have hown : (.idle rs : ClientThread ι).requests = (s.client i).requests := by
        rw [hi]
        rfl
      have htotal := htransacting.tally k
      have htally : (s.db.popFrame i).tally k = s.db.tally k := by cases k <;> rfl
      rw [hdue] at htotal
      show (s.db.popFrame i).tally k + 0 +
        owingAll (fun j => (Function.update s.client i (.idle rs) j).requests) k = _
      rw [requests_update_of_eq hown, htally]
      exact htotal
    · cases (htransacting.joined hj i).symm.trans hi
  · exact .inr (.inr (hfailed.update (by simp [hi]) rfl rfl))

theorem InOrder.throw (h : InOrder calls s g) (hi : s.client i = .running r p rs)
    (hpost : Paid r g none) :
    InOrder calls { s with
      db := s.db.popFrame i
      mutex := none
      client := Function.update s.client i .failed } .idle := by
  obtain ⟨hdue, c, rfl, hkey⟩ := hpost.2 rfl
  refine ⟨fun hne => absurd rfl hne, .inr (.inr ?_)⟩
  rcases h.2 with hload | htransacting | hfailed
  · exact absurd hload.due hdue
  · have hrunning : s.client i ≠ .idle [] := by simp [hi]
    have hahead := (htransacting.client i).of_running hi
    exact ⟨htransacting.main_eq hrunning, i, Function.update_self ..,
      c, hahead.mem List.mem_cons_self, hkey⟩
  · exact hfailed.update (by simp [hi]) rfl rfl

omit [DecidableEq ι] in
theorem InOrder.callback (h : InOrder calls s g) (hmove : CallbackMove s e s') :
    InOrder calls s' g := by
  obtain ⟨hclient, hmutex, hjoined, -⟩ := hmove.threads
  obtain ⟨htally, hphase⟩ := hmove.tally
  refine ⟨fun hne => ?_, ?_⟩
  · show g.phase = some s'.db.phase
    rw [hphase]
    exact h.1 (hmutex ▸ hne)
  rcases h.2 with hload | htransacting | ⟨hmain, hfailed⟩
  · -- no operation has been submitted yet
    have hnone : ∀ n : ℕ, s.db.aios[n]? = none := fun n => by
      rw [hload.db]
      rfl
    cases hmove with
    | start ha _ => cases (hnone _).symm.trans ha
    | exit ha _ _ => cases (hnone _).symm.trans ha
    | free ha _ _ => cases (hnone _).symm.trans ha
    | decrement ha _ => cases (hnone _).symm.trans ha
    | notify ha _ => cases (hnone _).symm.trans ha
  · refine .inr (.inl ⟨?_, ?_, ?_, ?_⟩)
    · have hmain := htransacting.main
      cases hmove with
      | notify ha hc =>
        show (if s.main = .blocked then MainThread.woken else s.main) ≠ .loading
        split_ifs
        · simp
        · exact hmain
      | _ => exact hmain
    · rw [hclient, hphase]
      exact htransacting.client
    · intro k
      rw [htally, hclient]
      exact htransacting.tally k
    · rw [hjoined, hclient]
      exact htransacting.joined
  · refine .inr (.inr ⟨?_, by rwa [hclient]⟩)
    cases hmove with
    | notify ha hc =>
      show (if s.main = .blocked then MainThread.woken else s.main) = .transacting
      rw [hmain]
      rfl
    | _ => exact hmain

omit [DecidableEq ι] in
theorem InOrder.main_step (h : InOrder calls s g)
    (hnone : (∀ i, s.client i = .idle []) → s.mutex = none)
    (hidle : s.mutex = none → g = .idle)
    (hmove : MainMove (fun i => transactionRequests (calls i)) s e s') : InOrder calls s' g := by
  obtain ⟨hdb, hmutex⟩ := hmove.db_eq
  refine ⟨by rw [hmutex, hdb]; exact h.1, ?_⟩
  rcases h.2 with hload | htransacting | ⟨hmain, j, hfailed, -⟩
  · obtain ⟨hi, hmain, hclient⟩ := hmove.of_loading hload.main
    obtain rfl := hidle (hnone hi)
    have hzero : ∀ k, s.db.tally k = 0 := fun k => by
      rw [hload.db]
      cases k <;> rfl
    have hjoined : ¬ s'.main.joined := by simp [hmain, MainThread.joined]
    refine .inr (.inl ⟨by simp [hmain], fun i => ?_, fun k => ?_, fun hj => absurd hj hjoined⟩)
    · rw [hclient]
      exact .inl ⟨_, rfl, .inl rfl⟩
    · rw [hdb, hclient, hzero, Nat.zero_add]
      exact Nat.zero_add _
  · obtain ⟨hmain, hclient, hjoined⟩ := hmove.of_ne_loading htransacting.main
    refine .inr (.inl ⟨hmain, ?_, ?_, fun _ => ?_⟩)
    · rw [hdb, hclient]
      exact htransacting.client
    · rw [hdb, hclient]
      exact htransacting.tally
    · rw [hclient]
      exact hjoined.elim htransacting.joined id
  · obtain ⟨-, -, hjoined⟩ := hmove.of_ne_loading (by simp [hmain])
    rcases hjoined with hjoined | hi
    · rw [hmain] at hjoined
      cases hjoined
    · cases (hi j).symm.trans hfailed

end Steps

/-- The order of the counters in a run. -/
theorem inOrder [Fintype ι] {keys : ι → List Str} {calls : ι → List CephCall}
    {ok : RealCephSystem ι → CephEvent ι → Prop}
    (h : Runs (Step fun i => transactionRequests (calls i)) ok
      (new fun i => loadRequests (keys i)) s) :
    ∃ g, InOrder calls s g ∧ (s.mutex = none → g = .idle) ∧
      ((∀ i, s.client i = .idle []) → s.mutex = none) := by
  obtain ⟨g, horder, htracks⟩ := invariant (I := InOrder calls) h
    ⟨fun hne => absurd rfl hne, .inl (loading_new keys)⟩
    (fun s i r rs hs _ _ hi =>
      ⟨⟨some s.db.phase, r.dueIn s.db.phase⟩, payObeys_program i r _, hs.lock hi⟩)
    (fun s g i r p rs hs hmutex _ => hs.1 (by simp [hmutex]))
    (fun s g i r p rs g' db' p' hs _ hi hm => hs.run hi hm)
    (fun s g i r p rs st hs _ hmutex hi hpost => hs.ret hmutex hi hpost)
    (fun s g i r p rs hs _ _ hi hpost => hs.throw hi hpost)
    (fun s g e s' hs _ hmove => hs.callback hmove)
    (fun s g e s' hs htracks _ hmove => hs.main_step htracks.mutex_eq_none htracks.idle hmove)
  exact ⟨g, horder, htracks.idle, htracks.mutex_eq_none⟩

omit [DecidableEq ι] in
/-- What has been counted, and what the running call is to add, is what the calls that have been
started owed. -/
theorem Transacting.made [Fintype ι] {calls : ι → List CephCall} (h : Transacting calls s g) :
    ∃ made : ι → List CephCall, (∀ i, calls i = made i ++ callsOf (s.client i).requests) ∧
      ∀ k, s.db.tally k + g.due.amount k = owingAll (fun i => transactionRequests (made i)) k := by
  have hmade : ∀ i, ∃ made, calls i = made ++ callsOf (s.client i).requests := fun i => by
    rcases h.client i with ⟨rs, hrs, hahead⟩ | ⟨r, p, rs, hrs, hahead⟩
    · rw [hrs]
      exact hahead.exists_made
    · -- the running call has been started
      obtain ⟨made, hmade⟩ := hahead.exists_made
      rw [hrs]
      exact ⟨made ++ r.calls, by rw [List.append_assoc]; exact hmade⟩
  choose made hmade using hmade
  refine ⟨made, hmade, fun k => ?_⟩
  have htally := h.tally k
  rw [owingAll_made hmade] at htally
  omega

/-- **The counters of the asynchronous back end.** While the load threads run, nothing but the phase
has changed; no operation has been submitted. When `HandleAllData` runs, the counters are those of
the calls of the transaction threads. With keys that hold a number no thread ever fails, and
before, what has been counted and what the running call is to add is what the calls that have been
started owed. -/
theorem counters [Fintype ι] {keys : ι → List Str} {calls : ι → List CephCall}
    {ok : RealCephSystem ι → CephEvent ι → Prop}
    (h : Runs (Step fun i => transactionRequests (calls i)) ok
      (new fun i => loadRequests (keys i)) s) :
    (s.main = .loading → s.db = { RealCephDB.new with phase := s.db.phase }) ∧
      (s.main = .handling → ∀ k, s.db.tally k =
        owingAll (fun i => transactionRequests (calls i)) k) ∧
      ((∀ i, ∀ c ∈ calls i, realKey c.key ≠ none) → (∀ i, s.client i ≠ .failed) ∧
        (s.main ≠ .loading → ∃ (made : ι → List CephCall) (due : Due),
          (∀ i, calls i = made i ++ callsOf (s.client i).requests) ∧
            (s.mutex = none → due = .nothing) ∧
            ∀ k, s.db.tally k + due.amount k =
              owingAll (fun i => transactionRequests (made i)) k)) := by
  obtain ⟨g, horder, hidle, hnone⟩ := inOrder h
  have hdue : s.mutex = none → g.due = .nothing := fun hmutex => by
    rw [hidle hmutex]
    rfl
  rcases horder.2 with hload | htransacting | ⟨hmain, i, hfailed, c, hc, hkey⟩
  · refine ⟨fun _ => hload.db, fun hs => ?_, fun _ => ⟨fun i hf => ?_, ?_⟩⟩
    · cases hload.main.symm.trans hs
    · rcases hload.client i with ⟨rs, hrs, -⟩ | ⟨r, p, rs, hrs, -⟩ <;> cases hrs.symm.trans hf
    · exact fun hs => absurd hload.main hs
  · refine ⟨fun hs => absurd hs htransacting.main, fun hs k => ?_, fun _ => ⟨fun i hf => ?_, ?_⟩⟩
    · have hended := htransacting.joined (by rw [hs]; rfl)
      have hrequests : (fun i => (s.client i).requests) = fun _ : ι => [] := by
        funext i
        rw [hended i]
        rfl
      have htally := htransacting.tally k
      rw [hrequests, owingAll_nil, hdue (hnone hended)] at htally
      exact htally
    · rcases htransacting.client i with ⟨rs, hrs, -⟩ | ⟨r, p, rs, hrs, -⟩ <;>
        cases hrs.symm.trans hf
    · obtain ⟨made, hmade, htally⟩ := htransacting.made
      exact fun _ => ⟨made, g.due, hmade, hdue, htally⟩
  · rw [hmain]
    exact ⟨nofun, nofun, fun hkeys => absurd hkey (hkeys i c hc)⟩

end RealCephSystem

end YcsbC
