import YcsbC.Foundation.Window
import YcsbC.Xihu.Transfer

/-!
# The pipeline of a transfer

While a call waits, the RPC library hands over one response after another, in any order, and
`cont_func` keeps a window of requests in flight. A buffer is either in `avail` or belongs to one
request in flight, and the counter `ms.nxt` is that of the window, so the call returns when all its
requests have been completed and none is left to arrive in a later call.

## Main definitions

* `Server`, `Events`: a server, and what happens while a call waits.
* `Sessions`: calls one after the other.
* `XihuClient.Pool`: who has the buffers.
* `Transfer.Follows`: the client follows a window.

## Main results

* `Transfer.Follows.answered`, `Transfer.Follows.handOver`: one event.
* `Transfer.follows_of_events`, `idle_of_sessions`: whole calls and sessions.
-/

namespace YcsbC

open XihuClient

/-! ### Events and sessions -/

/-- A server: its state and the request that it handles, its next state and its response. -/
abbrev Server (β : Type) := β → MsgBuffer → β → MsgBuffer → Prop

namespace XihuClient

/-- The response to the request `r` is under way. -/
def answered (requests : List Request) (r : Request) (resp : MsgBuffer) (x : XihuClient) :
    XihuClient :=
  { x with rpc := { x.rpc with
      requests := requests, responses := x.rpc.responses ++ [(r, resp)] } }

/-- The event loop puts the response into its buffer and calls the continuation. -/
def handOver (responses : List (Request × MsgBuffer)) (r : Request) (resp : MsgBuffer)
    (x : XihuClient) : Option XihuClient :=
  contFunc r.k { x with
    resps := Function.update x.resps r.k resp, rpc := { x.rpc with responses := responses } }

/-- The requests that have not been completed. -/
def inflight (x : XihuClient) : List Request := x.rpc.requests ++ x.rpc.responses.map Prod.fst

end XihuClient

variable {β : Type}

/-- What happens while a call waits: the server handles any request, whose buffer it reads at that
time, and the event loop hands over any response. `done` are the requests that have been
completed. -/
inductive Events (serves : Server β) (x₀ : XihuClient) (b₀ : β) :
    List Request → XihuClient → β → Prop
  | refl : Events serves x₀ b₀ [] x₀ b₀
  | serve {done : List Request} {x : XihuClient} {b b' : β} (h : Events serves x₀ b₀ done x b)
      {l₁ l₂ : List Request} {r : Request} (hr : x.rpc.requests = l₁ ++ r :: l₂)
      {resp : MsgBuffer} (hserve : serves b (x.reqs r.k) b' resp) :
      Events serves x₀ b₀ done (x.answered (l₁ ++ l₂) r resp) b'
  | complete {done : List Request} {x x' : XihuClient} {b : β}
      (h : Events serves x₀ b₀ done x b) {l₁ l₂ : List (Request × MsgBuffer)} {r : Request}
      {resp : MsgBuffer} (hr : x.rpc.responses = l₁ ++ (r, resp) :: l₂)
      (hcont : x.handOver (l₁ ++ l₂) r resp = some x') :
      Events serves x₀ b₀ (done ++ [r]) x' b

/-- Calls one after the other, each of which has returned. Between the calls the memory may be
changed. -/
inductive Sessions (serves : Server β) (x₀ : XihuClient) (b₀ : β) :
    List Transfer → XihuClient → β → Prop
  | refl : Sessions serves x₀ b₀ [] x₀ b₀
  | memory {ts : List Transfer} {x : XihuClient} {b : β} (h : Sessions serves x₀ b₀ ts x b)
      (m : Memory) : Sessions serves x₀ b₀ ts { x with mem := m } b
  | call {ts : List Transfer} {x x₁ x' : XihuClient} {b b' : β} {done : List Request}
      (h : Sessions serves x₀ b₀ ts x b) (t : Transfer) (ht : t.InRange)
      (hstart : t.start x = some x₁) (hevents : Events serves x₁ b done x' b')
      (hreturns : ¬ x'.Waits) : Sessions serves x₀ b₀ (ts ++ [t]) x' b'

/-! ### The buffers -/

namespace XihuClient

/-- Each pair of buffers is in `avail` or belongs to one request in flight, and the request buffers
in flight hold what was enqueued. -/
structure Pool (x : XihuClient) : Prop where
  perm : (x.avail ++ x.inflight.map Request.k).Perm (List.range msgBufferNum)
  pinned : ∀ r ∈ x.inflight, x.reqs r.k = r.msg

variable {x y : XihuClient}

theorem pool_init (reqs resps : ℕ → MsgBuffer) (mem : Memory) : (init reqs resps mem).Pool where
  perm := .of_eq (List.append_nil _)
  pinned _ hr := absurd hr List.not_mem_nil

theorem Pool.of_perm (h : x.Pool) (hreqs : y.reqs = x.reqs)
    (hperm : (y.avail ++ y.inflight.map Request.k).Perm (x.avail ++ x.inflight.map Request.k))
    (hsub : ∀ r ∈ y.inflight, r ∈ x.inflight) : y.Pool where
  perm := hperm.trans h.perm
  pinned r hr := by rw [hreqs, h.pinned r (hsub r hr)]

theorem inflight_answered {l₁ l₂ : List Request} {r : Request}
    (hr : x.rpc.requests = l₁ ++ r :: l₂) (resp : MsgBuffer) :
    (x.answered (l₁ ++ l₂) r resp).inflight.Perm x.inflight := by
  rw [inflight, inflight, hr]
  show (l₁ ++ l₂ ++ (x.rpc.responses ++ [(r, resp)]).map Prod.fst).Perm _
  rw [List.map_append, List.map_singleton, ← List.append_assoc]
  refine (List.perm_append_singleton r _).trans ?_
  rw [List.append_assoc l₁ (r :: l₂), List.append_assoc l₁ l₂]
  exact List.perm_middle.symm

theorem Pool.answered (h : x.Pool) {l₁ l₂ : List Request} {r : Request}
    (hr : x.rpc.requests = l₁ ++ r :: l₂) (resp : MsgBuffer) :
    (x.answered (l₁ ++ l₂) r resp).Pool := by
  have hperm := inflight_answered hr resp
  exact h.of_perm rfl ((hperm.map Request.k).append_left x.avail) fun _ hmem => hperm.mem_iff.1 hmem

theorem inflight_handOver {l₁ l₂ : List (Request × MsgBuffer)} {r : Request} {resp : MsgBuffer}
    (hr : x.rpc.responses = l₁ ++ (r, resp) :: l₂) (hrequests : y.rpc.requests = x.rpc.requests)
    (hresponses : y.rpc.responses = l₁ ++ l₂) : x.inflight.Perm (r :: y.inflight) := by
  rw [inflight, inflight, hr, hrequests, hresponses, List.map_append, List.map_cons,
    List.map_append, ← List.append_assoc, ← List.append_assoc]
  exact List.perm_middle

theorem Pool.recycle (h : x.Pool) {r : Request} (hinflight : x.inflight.Perm (r :: y.inflight))
    (hreqs : y.reqs = x.reqs) (havail : y.avail = x.avail ++ [r.k]) : y.Pool := by
  refine h.of_perm hreqs ?_ fun _ hmem => hinflight.mem_iff.2 (List.mem_cons_of_mem _ hmem)
  rw [havail, List.append_assoc]
  exact ((hinflight.map Request.k).append_left x.avail).symm

theorem Pool.send (h : x.Pool) (havail : x.avail ≠ []) (fill : MsgBuffer → MsgBuffer) :
    ∃ r x', x.send fill = some x' ∧ x'.Pool ∧ r.msg = fill (x.reqs r.k) ∧
      x' = { x with
        avail := x.avail.tail
        reqs := Function.update x.reqs r.k r.msg
        rpc := { x.rpc with
          requests := x.rpc.requests ++ [r], sent := x.rpc.sent ++ [r] } } := by
  obtain ⟨ms, reqs, resps, avail, mem, ⟨requests, responses, sent⟩⟩ := x
  obtain ⟨k, avail, rfl⟩ := List.exists_cons_of_ne_nil havail
  have hmsg : Function.update reqs k (fill (reqs k)) k = fill (reqs k) := Function.update_self ..
  refine ⟨⟨k, fill (reqs k)⟩, _, rfl, ?_, rfl, ?_⟩
  · obtain ⟨hperm, hpinned⟩ := h
    have hnodup := hperm.nodup_iff.2 List.nodup_range
    simp only [inflight, List.cons_append, List.nodup_cons, List.mem_append, not_or] at hnodup
    constructor
    · refine List.Perm.trans ?_ hperm
      simp only [enqueueRequest, inflight, List.map_append, List.map_cons, List.map_nil,
        List.append_assoc, List.cons_append]
      rw [← List.append_assoc avail, ← List.append_assoc avail]
      exact List.perm_middle
    · intro r hr
      simp only [enqueueRequest, inflight, List.mem_append, List.mem_singleton] at hr
      rcases hr with (hr | rfl) | hr
      · have hk : r.k ≠ k := fun hc =>
          hnodup.1.2 (hc ▸ List.mem_map_of_mem (List.mem_append_left _ hr))
        exact (Function.update_of_ne hk ..).trans (hpinned r (List.mem_append_left _ hr))
      · exact rfl
      · have hk : r.k ≠ k := fun hc =>
          hnodup.1.2 (hc ▸ List.mem_map_of_mem (List.mem_append_right _ hr))
        exact (Function.update_of_ne hk ..).trans (hpinned r (List.mem_append_right _ hr))
  · simp only [enqueueRequest, hmsg, List.tail_cons]

theorem inflight_send {r : Request} (hrequests : y.rpc.requests = x.rpc.requests ++ [r])
    (hresponses : y.rpc.responses = x.rpc.responses) : y.inflight.Perm (r :: x.inflight) := by
  rw [inflight, inflight, hrequests, hresponses, List.append_assoc, List.singleton_append]
  exact List.perm_middle

end XihuClient

/-! ### The client follows a window -/

theorem forall_getElem?_concat {α : Type} {P : ℕ → α → Prop} {l : List α} {a : α}
    (h : ∀ i b, l[i]? = some b → P i b) (ha : P l.length a) :
    ∀ i b, (l ++ [a])[i]? = some b → P i b := by
  intro i b hb
  rw [List.getElem?_append] at hb
  split_ifs at hb with hi
  · exact h i b hb
  · obtain ⟨hlt, hab⟩ := List.getElem?_eq_some_iff.1 hb
    rw [List.length_singleton] at hlt
    obtain rfl : i = l.length := by omega
    rw [← hab, List.getElem_singleton]
    exact ha

namespace Transfer

variable {t : Transfer} {m : Memory} {before done : List Request} {w : Window Request}
  {x x' : XihuClient}

/-- During the transfer `t` the client follows the window `w`: the requests in flight are the
pending ones, and those sent since the call began are the launched ones, in the order of their
blocks. -/
structure Follows (t : Transfer) (m : Memory) (before : List Request) (w : Window Request)
    (x : XihuClient) : Prop where
  pool : x.Pool
  ms : x.ms = t.mission w.next
  mem : t.type = .Write → x.mem = m
  pending : w.pending = x.inflight
  sent : x.rpc.sent = before ++ w.launched
  asks : ∀ i r, w.launched[i]? = some r → t.Asks m i r.msg

/-- The initial loop. -/
theorem exists_sends (h : x.Pool) (hm : t.type = .Write → x.mem = m) {n : ℕ}
    (hn : n ≤ x.avail.length) :
    ∃ x' new, (List.range n).foldlM (fun x i => x.send (t.fill x.mem i)) x = some x' ∧
      x'.Pool ∧ x'.ms = x.ms ∧ x'.mem = x.mem ∧ x'.inflight.Perm (x.inflight ++ new) ∧
      x'.rpc.sent = x.rpc.sent ++ new ∧ x'.rpc.responses = x.rpc.responses ∧
      x'.avail.length + n = x.avail.length ∧ new.length = n ∧
      ∀ i r, new[i]? = some r → t.Asks m i r.msg := by
  induction n with
  | zero =>
    refine ⟨x, [], rfl, h, rfl, rfl, .of_eq (List.append_nil _).symm, (List.append_nil _).symm, rfl,
      rfl, rfl, fun i r hr => ?_⟩
    rw [List.getElem?_nil] at hr
    cases hr
  | succ n ih =>
    obtain ⟨x₁, new, hfold, hpool, hms, hmem, hinflight, hsent, hresponses, havail, hlength,
      hasks⟩ := ih (by omega)
    obtain ⟨r, x₂, hsend, hpool₂, hmsg, hx₂⟩ := hpool.send (List.ne_nil_of_length_pos (by omega))
      (t.fill x₁.mem n)
    refine ⟨x₂, new ++ [r], ?_, hpool₂, ?_, ?_, ?_, ?_, ?_, ?_, ?_, ?_⟩
    · rw [List.range_succ, List.foldlM_append, hfold]
      exact congrArg (· >>= pure) hsend
    · rw [hx₂, ← hms]
    · rw [hx₂, ← hmem]
    · refine (inflight_send (x := x₁) (by rw [hx₂]) (by rw [hx₂])).trans ?_
      rw [← List.append_assoc]
      exact (hinflight.cons r).trans (List.perm_append_singleton r _).symm
    · rw [hx₂, ← List.append_assoc, ← hsent]
    · rw [hx₂, ← hresponses]
    · rw [hx₂]
      show x₁.avail.tail.length + (n + 1) = _
      rw [List.length_tail]
      omega
    · rw [List.length_append, hlength, List.length_singleton]
    · refine forall_getElem?_concat hasks ?_
      rw [hlength, hmsg, hmem]
      exact asks_fill hm n _

/-- A call starts with a window over its first requests, when none is in flight. -/
theorem exists_start (ht : t.InRange) (h : x.Pool) (hidle : x.inflight = []) :
    ∃ x₁ new, t.start x = some x₁ ∧ new.length = t.depth ∧
      t.Follows x.mem x.rpc.sent (.start new) x₁ ∧ x₁.mem = x.mem ∧ x₁.rpc.responses = [] := by
  have havail : x.avail.length = 50 := by
    have hlength := h.perm.length_eq
    rwa [hidle, List.map_nil, List.append_nil, List.length_range] at hlength
  have hdepth := t.depth_le_thirty
  have hpool : XihuClient.Pool { x with ms := t.mission t.depth } := ⟨h.perm, h.pinned⟩
  obtain ⟨x₁, new, hfold, hpool₁, hms, hmem, hinflight, hsent, hresponses, -, hlength, hasks⟩ :=
    exists_sends (t := t) (m := x.mem) (n := t.depth) hpool (fun _ => rfl)
      (by show t.depth ≤ x.avail.length; omega)
  refine ⟨x₁, new, (start_eq ht x).trans hfold, hlength, ⟨hpool₁, ?_, fun _ => hmem, ?_, hsent,
    hasks⟩, hmem, hresponses.trans (List.map_eq_nil_iff.1 (List.append_eq_nil_iff.1 hidle).2)⟩
  · rw [hms, Window.start, hlength]
  · refine (Multiset.coe_eq_coe.2 (hinflight.trans (.of_eq ?_))).symm
    exact congrArg (· ++ new) hidle

theorem follows_of_start (ht : t.InRange) (h : x.Pool) (hidle : x.inflight = [])
    (hstart : t.start x = some x') :
    ∃ new, new.length = t.depth ∧ t.Follows x.mem x.rpc.sent (.start new) x' ∧ x'.mem = x.mem ∧
      x'.rpc.responses = [] := by
  obtain ⟨x₁, new, hstart', hnew⟩ := t.exists_start ht h hidle
  obtain rfl := Option.some.inj (hstart.symm.trans hstart')
  exact ⟨new, hnew⟩

theorem Follows.answered (h : t.Follows m before w x) {l₁ l₂ : List Request} {r : Request}
    (hr : x.rpc.requests = l₁ ++ r :: l₂) (resp : MsgBuffer) :
    t.Follows m before w (x.answered (l₁ ++ l₂) r resp) :=
  { h with
    pool := h.pool.answered hr resp
    pending := h.pending.trans (Multiset.coe_eq_coe.2 (inflight_answered hr resp).symm) }

/-- The counter of a transfer stays below `2 ^ 32`. -/
theorem next_lt (ht : t.InRange)
    (h : w.Tracks t.len.toNat t.depth done) : w.next < 2 ^ 32 := by
  have hrange : t.blockID.toNat + t.len.toNat ≤ 2 ^ 31 := ht
  have hcard := h.card_pending
  have hnext := h.next_eq
  have hdepth := t.depth_le_thirty
  omega

/-- A response is handed over: the continuation does not fail, and the window makes a step. -/
theorem Follows.handOver (h : t.Follows m before w x) (ht : t.InRange)
    (htracks : w.Tracks t.len.toNat t.depth done) {l₁ l₂ : List (Request × MsgBuffer)}
    {r : Request} {resp : MsgBuffer} (hr : x.rpc.responses = l₁ ++ (r, resp) :: l₂) :
    ∃ x' w', x.handOver (l₁ ++ l₂) r resp = some x' ∧ w.Step t.len.toNat r w' ∧
      t.Follows m before w' x' ∧ x'.mem = t.receive resp x.mem ∧
      x'.rpc.responses = l₁ ++ l₂ := by
  let y : XihuClient := { x with
    resps := Function.update x.resps r.k resp, rpc := { x.rpc with responses := l₁ ++ l₂ } }
  let z : XihuClient := { y with
    avail := x.avail ++ [r.k], ms := t.mission (w.next + 1), mem := t.receive resp x.mem }
  have hcont : x.handOver (l₁ ++ l₂) r resp =
      if w.next < t.len.toNat then z.send (t.fill z.mem w.next) else some z := by
    have hresp : y.resps r.k = resp := Function.update_self ..
    have hcont := contFunc_eq (x := y) h.ms (next_lt ht htracks) r.k
    rwa [hresp] at hcont
  have hinflight : x.inflight.Perm (r :: z.inflight) := inflight_handOver hr rfl rfl
  have hpool : z.Pool := h.pool.recycle hinflight rfl rfl
  have hpending : w.pending = r ::ₘ (z.inflight : Multiset Request) :=
    h.pending.trans (Multiset.coe_eq_coe.2 hinflight)
  have hmem : t.type = .Write → z.mem = m := fun hwrite =>
    (receive_of_write hwrite resp x.mem).trans (h.mem hwrite)
  by_cases hlt : w.next < t.len.toNat
  · obtain ⟨r', x', hsend, hpool', hmsg, hx'⟩ :=
      hpool.send (List.append_ne_nil_of_right_ne_nil _ (List.cons_ne_nil _ _))
        (t.fill z.mem w.next)
    refine ⟨x', _, hcont.trans ((if_pos hlt).trans hsend), .launch _ hpending hlt r', ⟨hpool',
      ?_, ?_, ?_, ?_, ?_⟩, by rw [hx'], by rw [hx']⟩
    · rw [hx']
    · rw [hx']
      exact hmem
    · exact (Multiset.coe_eq_coe.2 (inflight_send (x := z) (by rw [hx']) (by rw [hx']))).symm
    · rw [hx', ← List.append_assoc, ← h.sent]
    · refine forall_getElem?_concat h.asks ?_
      rw [htracks.length_eq, Nat.min_eq_left (by omega), hmsg]
      exact asks_fill hmem _ _
  · exact ⟨z, _, hcont.trans (if_neg hlt), .drain _ hpending (by omega), ⟨hpool, rfl, hmem, rfl,
      h.sent, h.asks⟩, rfl, rfl⟩

theorem Follows.completed (h : t.Follows m before w x) (ht : t.InRange)
    (htracks : w.Tracks t.len.toNat t.depth done) {l₁ l₂ : List (Request × MsgBuffer)}
    {r : Request} {resp : MsgBuffer} (hr : x.rpc.responses = l₁ ++ (r, resp) :: l₂)
    (hcont : x.handOver (l₁ ++ l₂) r resp = some x') :
    ∃ w', w.Step t.len.toNat r w' ∧ t.Follows m before w' x' ∧ x'.mem = t.receive resp x.mem ∧
      x'.rpc.responses = l₁ ++ l₂ := by
  obtain ⟨x'', w', hcont', hstep⟩ := h.handOver ht htracks hr
  obtain rfl := Option.some.inj (hcont.symm.trans hcont')
  exact ⟨w', hstep⟩

/-- The client follows a window through all events of a call. -/
theorem follows_of_events (ht : t.InRange) {serves : Server β} {x₁ : XihuClient} {b₁ b : β}
    {new : List Request} (hnew : new.length = t.depth)
    (h : t.Follows m before (.start new) x₁) (hevents : Events serves x₁ b₁ done x b) :
    ∃ w, t.Follows m before w x ∧ w.Tracks t.len.toNat t.depth done := by
  induction hevents with
  | refl =>
    refine ⟨.start new, h, ?_⟩
    rw [← hnew]
    exact Window.tracks_start (hnew ▸ t.depth_le)
  | serve _ hr _ ih =>
    obtain ⟨w, hw, htracks⟩ := ih
    exact ⟨w, hw.answered hr _, htracks⟩
  | complete _ hr hcont ih =>
    obtain ⟨w, hw, htracks⟩ := ih
    obtain ⟨w', hstep, hw', -⟩ := hw.completed ht htracks hr hcont
    exact ⟨w', hw', htracks.step hstep⟩

/-- The condition of the waiting loop is that of the window. -/
theorem Follows.waits_iff (h : t.Follows m before w x)
    (htracks : w.Tracks t.len.toNat t.depth done) : x.Waits ↔ x.inflight ≠ [] := by
  have hwaiting := htracks.waiting_iff depth_pos
  rw [h.pending, ne_eq, Multiset.coe_eq_zero] at hwaiting
  rw [ne_eq, ← hwaiting, Waits, h.ms]
  show (w.next : ℤ) < (t.len.toNat : ℤ) + (t.depth : ℤ) ↔ _
  omega

/-- When a call returns, none of its requests is in flight. -/
theorem Follows.idle (h : t.Follows m before w x)
    (htracks : w.Tracks t.len.toNat t.depth done) (hreturns : ¬ x.Waits) :
    x.inflight = [] ∧ w.pending = 0 := by
  have hinflight : x.inflight = [] :=
    not_not.1 fun hinflight => hreturns ((h.waits_iff htracks).2 hinflight)
  exact ⟨hinflight, h.pending.trans ((Multiset.coe_eq_zero _).2 hinflight)⟩

/-- A request that is in flight or completed is one of those sent in the call. -/
theorem Follows.exists_asks (h : t.Follows m before w x)
    (htracks : w.Tracks t.len.toNat t.depth done) {r : Request}
    (hr : r ∈ x.inflight ∨ r ∈ done) : ∃ i < t.len.toNat, t.Asks m i r.msg := by
  have hmem : r ∈ (w.launched : Multiset Request) := by
    rwa [← htracks.conserved, h.pending, Multiset.mem_add, Multiset.mem_coe, Multiset.mem_coe]
  obtain ⟨i, hi⟩ := List.mem_iff_getElem?.1 (Multiset.mem_coe.1 hmem)
  obtain ⟨hlt, -⟩ := List.getElem?_eq_some_iff.1 hi
  have hlength := htracks.length_eq
  exact ⟨i, by omega, h.asks i r hi⟩

/-- As long as requests are in flight, a server that answers everything lets one be completed. -/
theorem exists_complete (ht : t.InRange) {serves : Server β}
    (hserves : ∀ b req, ∃ b' resp, serves b req b' resp) {x₁ : XihuClient} {b₁ b : β}
    {new : List Request} (hnew : new.length = t.depth)
    (h : t.Follows m before (.start new) x₁) (hevents : Events serves x₁ b₁ done x b)
    (hinflight : x.inflight ≠ []) : ∃ r x' b', Events serves x₁ b₁ (done ++ [r]) x' b' := by
  have hanswered : ∀ x b, Events serves x₁ b₁ done x b → x.rpc.responses ≠ [] →
      ∃ r x' b', Events serves x₁ b₁ (done ++ [r]) x' b' := by
    intro x b hevents hresponses
    obtain ⟨⟨r, resp⟩, l, hcons⟩ := List.exists_cons_of_ne_nil hresponses
    have hr : x.rpc.responses = [] ++ (r, resp) :: l := hcons
    obtain ⟨w, hw, htracks⟩ := follows_of_events ht hnew h hevents
    obtain ⟨x', -, hcont, -⟩ := hw.handOver ht htracks hr
    exact ⟨r, x', b, hevents.complete hr hcont⟩
  by_cases hresponses : x.rpc.responses = []
  · have hrequests : x.rpc.requests ≠ [] := by
      rwa [inflight, hresponses, List.map_nil, List.append_nil] at hinflight
    obtain ⟨r, l, hcons⟩ := List.exists_cons_of_ne_nil hrequests
    have hr : x.rpc.requests = [] ++ r :: l := hcons
    obtain ⟨b', resp, hserve⟩ := hserves b (x.reqs r.k)
    refine hanswered _ b' (hevents.serve hr hserve) ?_
    exact List.append_ne_nil_of_right_ne_nil _ (List.cons_ne_nil _ _)
  · exact hanswered x b hevents hresponses

/-- A call can return when the server answers everything. -/
theorem exists_return (ht : t.InRange) {serves : Server β}
    (hserves : ∀ b req, ∃ b' resp, serves b req b' resp) {x₁ : XihuClient} (b₁ : β)
    {new : List Request} (hnew : new.length = t.depth)
    (h : t.Follows m before (.start new) x₁) :
    ∃ done x b, Events serves x₁ b₁ done x b ∧ ¬ x.Waits := by
  -- each round completes one request, until as many are completed as there are blocks
  have hrounds : ∀ n ≤ t.len.toNat, ∃ done x b, Events serves x₁ b₁ done x b ∧ done.length = n := by
    intro n hn
    induction n with
    | zero => exact ⟨[], x₁, b₁, .refl, rfl⟩
    | succ n ih =>
      obtain ⟨done, x, b, hevents, hlength⟩ := ih (by omega)
      obtain ⟨w, hw, htracks⟩ := follows_of_events ht hnew h hevents
      have hinflight : x.inflight ≠ [] := by
        intro hempty
        have hzero : w.pending = 0 := hw.pending.trans ((Multiset.coe_eq_zero _).2 hempty)
        have hall := (htracks.length_done depth_pos).1 hzero
        omega
      obtain ⟨r, x', b', hevents'⟩ := exists_complete ht hserves hnew h hevents hinflight
      exact ⟨_, x', b', hevents', by rw [List.length_append, hlength, List.length_singleton]⟩
  obtain ⟨done, x, b, hevents, hlength⟩ := hrounds t.len.toNat le_rfl
  obtain ⟨w, hw, htracks⟩ := follows_of_events ht hnew h hevents
  refine ⟨done, x, b, hevents, fun hwaits => (hw.waits_iff htracks).1 hwaits ?_⟩
  have hzero := (htracks.length_done depth_pos).2 hlength
  rwa [hw.pending, Multiset.coe_eq_zero] at hzero

end Transfer

/-! ### Sessions -/

/-- Between the calls no request is in flight. -/
theorem idle_of_sessions {serves : Server β} {x₀ x : XihuClient} {b₀ b : β} {ts : List Transfer}
    (hpool : x₀.Pool) (hidle : x₀.inflight = []) (h : Sessions serves x₀ b₀ ts x b) :
    x.Pool ∧ x.inflight = [] := by
  induction h with
  | refl => exact ⟨hpool, hidle⟩
  | memory _ m ih => exact ⟨⟨ih.1.perm, ih.1.pinned⟩, ih.2⟩
  | call _ t ht hstart hevents hreturns ih =>
    obtain ⟨new, hnew, hfollows, -⟩ := t.follows_of_start ht ih.1 ih.2 hstart
    obtain ⟨w, hw, htracks⟩ := t.follows_of_events ht hnew hfollows hevents
    exact ⟨hw.pool, (hw.idle htracks hreturns).1⟩

theorem Transfer.Follows.bids {t : Transfer} {m : Memory} {before : List Request}
    {w : Window Request} {x : XihuClient} (h : t.Follows m before w x) (ht : t.InRange)
    (hlength : w.launched.length ≤ t.len.toNat) :
    w.launched.map (fun r => r.msg.bid.toNat) =
      (List.range w.launched.length).map (t.blockID.toNat + ·) := by
  refine List.ext_getElem (by rw [List.length_map, List.length_map, List.length_range])
    fun i hi _ => ?_
  rw [List.length_map] at hi
  rw [List.getElem_map, List.getElem_map, List.getElem_range,
    (h.asks i _ (List.getElem?_eq_getElem hi)).bid, Transfer.toNat_bid ht (by omega)]

/-- **Every block of a transfer is asked for exactly once, and a call leaves nothing behind.** After
any calls, a call sends its first requests, and then, whatever the server does and in whatever order
the responses arrive: the requests sent since the call began are for consecutive blocks from the
first one on, and each of them is in flight or has been completed once. No continuation fails. The
call waits as long as a request is in flight, and then all its requests have been completed. -/
theorem transfer_exactly_once (serves : Server β) (reqs resps : ℕ → MsgBuffer) (mem : Memory)
    (b₀ : β) {ts : List Transfer} {x : XihuClient} {b : β}
    (hsessions : Sessions serves (init reqs resps mem) b₀ ts x b) {t : Transfer}
    (ht : t.InRange) :
    ∃ x₁, t.start x = some x₁ ∧ ∀ done x' b', Events serves x₁ b done x' b' →
      ∃ sent, x'.rpc.sent = x.rpc.sent ++ sent ∧
        sent.map (fun r => r.msg.bid.toNat) =
          (List.range (min (t.depth + done.length) t.len.toNat)).map (t.blockID.toNat + ·) ∧
        (x'.inflight ++ done).Perm sent ∧
        (∀ l₁ r resp l₂, x'.rpc.responses = l₁ ++ (r, resp) :: l₂ →
          (x'.handOver (l₁ ++ l₂) r resp).isSome) ∧
        (x'.Waits → x'.inflight ≠ []) ∧
        (¬ x'.Waits → x'.inflight = [] ∧ sent.length = t.len.toNat ∧ done.Perm sent) := by
  obtain ⟨hpool, hidle⟩ := idle_of_sessions (pool_init reqs resps mem) rfl hsessions
  obtain ⟨x₁, new, hstart, hnew, hfollows, -⟩ := t.exists_start ht hpool hidle
  refine ⟨x₁, hstart, fun done x' b' hevents => ?_⟩
  obtain ⟨w, hw, htracks⟩ := t.follows_of_events ht hnew hfollows hevents
  have hlength : w.launched.length = min (t.depth + done.length) t.len.toNat := by
    rw [htracks.length_eq, htracks.next_eq]
  have hperm : (x'.inflight ++ done).Perm w.launched := by
    rw [← Multiset.coe_eq_coe, ← Multiset.coe_add, ← hw.pending, htracks.conserved]
  refine ⟨w.launched, hw.sent, ?_, hperm, fun l₁ r resp l₂ hr => ?_,
    (hw.waits_iff htracks).1, fun hreturns => ?_⟩
  · rw [← hlength]
    exact hw.bids ht (hlength ▸ Nat.min_le_right _ _)
  · obtain ⟨x'', -, hcont, -⟩ := hw.handOver ht htracks hr
    rw [hcont]
    rfl
  · obtain ⟨hinflight, hzero⟩ := hw.idle htracks hreturns
    rw [hinflight, List.nil_append] at hperm
    exact ⟨hinflight, hperm.length_eq.symm.trans
      ((htracks.length_done Transfer.depth_pos).1 hzero), hperm⟩

/-- A client that has just been made. -/
def newClient (mem : Memory) : XihuClient :=
  init (fun _ => ⟨.Read, 0, fun _ => 0, 0⟩) (fun _ => ⟨.Read, 0, fun _ => 0, 0⟩) mem

/-- A call that needs more requests than may be in flight. -/
def readForty : Transfer := ⟨.Read, 7, 40, 0⟩

theorem inRange_readForty : readForty.InRange := by
  show _ ≤ _
  decide

/-- A server that answers every request, with anything. -/
def anyServer : Server Unit := fun _ _ _ _ => True

theorem exists_anyServer (b : Unit) (req : MsgBuffer) : ∃ b' resp, anyServer b req b' resp :=
  ⟨b, req, trivial⟩

/-- A new client reads forty blocks, so that the continuations send ten of the requests. -/
theorem transfer_exactly_once_forty_blocks :
    ∃ x₁ done x', readForty.start (newClient fun _ => 0) = some x₁ ∧
      Events anyServer x₁ () done x' () ∧ ¬ x'.Waits ∧ x'.inflight = [] ∧ done.Perm x'.rpc.sent ∧
      x'.rpc.sent.map (fun r => r.msg.bid.toNat) = (List.range 40).map (7 + ·) := by
  obtain ⟨x₁, hstart, hevents⟩ := transfer_exactly_once anyServer _ _ (fun _ => 0) () .refl
    inRange_readForty
  obtain ⟨new, hnew, hfollows, -⟩ :=
    Transfer.follows_of_start inRange_readForty (pool_init _ _ _) rfl hstart
  obtain ⟨done, x', b', h, hreturns⟩ :=
    Transfer.exists_return inRange_readForty exists_anyServer () hnew hfollows
  obtain ⟨sent, hsent, hbids, -, -, -, hend⟩ := hevents done x' b' h
  obtain ⟨hinflight, hlength, hperm⟩ := hend hreturns
  have hforty : min (readForty.depth + done.length) 40 = 40 := by
    have hlen : readForty.len.toNat = 40 := rfl
    have hdone := hperm.length_eq
    omega
  rw [show readForty.len.toNat = 40 from rfl, hforty] at hbids
  obtain rfl : x'.rpc.sent = sent := hsent
  exact ⟨x₁, done, x', hstart, h, hreturns, hinflight, hperm, hbids⟩

end YcsbC
