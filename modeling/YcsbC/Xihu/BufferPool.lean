import YcsbC.Xihu.Pipeline

/-!
# The pool of message buffers

All calls share fifty pairs of buffers. `cont_func` puts the pair of a completed request back into
`avail` before it reads the response out of it and before it decides whether to send another
request. No request in flight loses its buffers by that: there are never more than thirty in flight,
so that `avail` holds others, and the one at its front is not the one that has just been put back.

## Main definitions

* `Reached`: the states of the client between the calls, in their initial loops and while they wait.
* `XihuClient.Spares`: what a continuation leaves alone.

## Main results

* `XihuClient.contFunc_cases`: what the continuation does with the buffers.
* `XihuClient.Pool.handOver`: the continuation spares the requests in flight.
* `buffers_never_alias`: the pool in every reachable state.
-/

namespace YcsbC

open XihuClient

variable {β : Type}

/-- The states of a client that starts in `x₀`: between the calls, after some rounds of the initial
loop of a call, and while a call waits. -/
inductive Reached (serves : Server β) (x₀ : XihuClient) (b₀ : β) : XihuClient → Prop
  | idle {ts : List Transfer} {x : XihuClient} {b : β} (h : Sessions serves x₀ b₀ ts x b) :
      Reached serves x₀ b₀ x
  | starting {ts : List Transfer} {x y : XihuClient} {b : β} {t : Transfer} {n : ℕ}
      (h : Sessions serves x₀ b₀ ts x b) (ht : t.InRange) (hn : n ≤ t.depth)
      (hstart : t.startRounds n x = some y) : Reached serves x₀ b₀ y
  | waiting {ts : List Transfer} {x x₁ y : XihuClient} {b b' : β} {t : Transfer}
      {done : List Request} (h : Sessions serves x₀ b₀ ts x b) (ht : t.InRange)
      (hstart : t.start x = some x₁) (hevents : Events serves x₁ b done y b') :
      Reached serves x₀ b₀ y

namespace XihuClient

/-- The memory after the block of a response has been copied. -/
def copied (resp : MsgBuffer) (x : XihuClient) : Memory :=
  match x.ms.type with
  | .Read => x.mem.store (x.ms.ptr + UInt64.ofInt (resp.bid.toNat - x.ms.bid) *
      UInt64.ofNat blockSize) resp.block
  | .Write => x.mem

/-- The continuation for the request `r` leaves the buffers of the other requests in flight alone.
It copies the block of the response `resp`, which it does not overwrite. A new request has buffers
of its own. -/
structure Spares (others : List Request) (r : Request) (resp : MsgBuffer) (x x' : XihuClient) :
    Prop where
  reqs : ∀ r' ∈ others, x'.reqs r'.k = x.reqs r'.k
  resps : ∀ r' ∈ others, x'.resps r'.k = x.resps r'.k
  response : x'.resps r.k = resp
  mem : x'.mem = x.copied resp
  fresh : ∀ r' ∈ x'.inflight, r' ∈ others ∨ r'.k ∉ others.map Request.k ∧ r'.k ≠ r.k

variable {x y z : XihuClient} {r : Request} {resp : MsgBuffer} {others : List Request}

/-- The continuation puts the buffers back, counts, copies the response of a read, and may send a
request. -/
theorem contFunc_cases (k : ℕ) (x : XihuClient) :
    ∃ z : XihuClient, z.avail = x.avail ++ [k] ∧ z.reqs = x.reqs ∧ z.resps = x.resps ∧
      z.rpc = x.rpc ∧ z.mem = x.copied (x.resps k) ∧
      (x.contFunc k = some z ∨ ∃ fill, x.contFunc k = z.send fill) := by
  obtain ⟨⟨type, bid, nxt, tot, pip, ptr⟩, reqs, resps, avail, mem, rpc⟩ := x
  cases type with
  | Write =>
    refine ⟨⟨⟨.Write, bid, nxt + 1, tot, pip, ptr⟩, reqs, resps, avail ++ [k], mem, rpc⟩, rfl, rfl,
      rfl, rfl, rfl, ?_⟩
    simp only [contFunc]
    split_ifs
    · exact .inl rfl
    · exact .inr ⟨_, rfl⟩
  | Read =>
    refine ⟨⟨⟨.Read, bid, nxt + 1, tot, pip, ptr⟩, reqs, resps, avail ++ [k],
      copied (resps k) ⟨⟨.Read, bid, nxt, tot, pip, ptr⟩, reqs, resps, avail, mem, rpc⟩, rpc⟩, rfl,
      rfl, rfl, rfl, rfl, ?_⟩
    simp only [contFunc]
    split_ifs
    · exact .inl rfl
    · exact .inr ⟨_, rfl⟩

theorem Pool.nodup (h : x.Pool) : (x.avail ++ x.inflight.map Request.k).Nodup :=
  h.perm.nodup_iff.2 List.nodup_range

theorem Pool.not_mem_of_sent (h : y.Pool) (hinflight : y.inflight.Perm (r :: z.inflight)) :
    r.k ∉ z.inflight.map Request.k ∧ r.k ∉ y.avail := by
  have hnodup := ((hinflight.map Request.k).append_left y.avail).nodup_iff.1 h.nodup
  rw [List.map_cons, List.perm_middle.nodup_iff, List.nodup_cons, List.mem_append, not_or] at hnodup
  exact hnodup.1.symm

/-- While `avail` holds buffers, the continuation spares the requests in flight. -/
theorem Pool.handOver (h : x.Pool) (havail : x.avail ≠ []) {l₁ l₂ : List (Request × MsgBuffer)}
    (hr : x.rpc.responses = l₁ ++ (r, resp) :: l₂) :
    ∃ x', x.handOver (l₁ ++ l₂) r resp = some x' ∧
      Spares (x.rpc.requests ++ (l₁ ++ l₂).map Prod.fst) r resp x x' := by
  let y : XihuClient := { x with
    resps := Function.update x.resps r.k resp, rpc := { x.rpc with responses := l₁ ++ l₂ } }
  obtain ⟨z, hzavail, hzreqs, hzresps, hzrpc, hzmem, hcont⟩ := contFunc_cases r.k y
  have hothers : z.inflight = x.rpc.requests ++ (l₁ ++ l₂).map Prod.fst := by
    rw [inflight, hzrpc]
  have hinflight : x.inflight.Perm (r :: z.inflight) :=
    inflight_handOver hr (by rw [hzrpc]) (by rw [hzrpc])
  have hpool : z.Pool := h.recycle hinflight hzreqs hzavail
  -- the request that has been completed had buffers of its own
  have hne : ∀ r' ∈ z.inflight, r'.k ≠ r.k := fun r' hr' heq =>
    (h.not_mem_of_sent hinflight).1 (heq ▸ List.mem_map_of_mem hr')
  have hresp : y.resps r.k = resp := Function.update_self ..
  have hresps : ∀ r' ∈ z.inflight, z.resps r'.k = x.resps r'.k := fun r' hr' => by
    rw [hzresps]
    exact Function.update_of_ne (hne r' hr') ..
  rw [hresp] at hzmem
  rw [← hothers]
  obtain hcont | ⟨fill, hcont⟩ := hcont
  · exact ⟨z, hcont, fun _ _ => congrFun hzreqs _, hresps, (congrFun hzresps _).trans hresp, hzmem,
      fun _ hr' => .inl hr'⟩
  · obtain ⟨r₁, x', hsend, hpool', -, hx'⟩ := hpool.send
      (hzavail ▸ List.append_ne_nil_of_right_ne_nil _ (List.cons_ne_nil _ _)) fill
    have hinflight' : x'.inflight.Perm (r₁ :: z.inflight) :=
      inflight_send (by rw [hx']) (by rw [hx'])
    obtain ⟨hnew, hfront⟩ := hpool'.not_mem_of_sent hinflight'
    -- the pair that has been put back is behind the front
    have hback : r.k ∈ x'.avail := by
      rw [hx']
      show r.k ∈ z.avail.tail
      rw [hzavail, List.tail_append_of_ne_nil havail]
      exact List.mem_append_right _ (List.mem_singleton_self _)
    refine ⟨x', hcont.trans hsend, fun r' hr' => ?_, fun r' hr' => ?_, ?_, ?_, fun r' hr' => ?_⟩
    · have hne' : r'.k ≠ r₁.k := fun heq => hnew (heq ▸ List.mem_map_of_mem hr')
      rw [hx']
      exact (Function.update_of_ne hne' ..).trans (congrFun hzreqs _)
    · rw [hx']
      exact hresps r' hr'
    · rw [hx']
      exact (congrFun hzresps _).trans hresp
    · rw [hx']
      exact hzmem
    · obtain rfl | hr' := List.mem_cons.1 (hinflight'.mem_iff.1 hr')
      · exact .inr ⟨hnew, fun heq => hfront (heq ▸ hback)⟩
      · exact .inl hr'

/-- Fewer than fifty requests in flight leave a buffer in `avail`. -/
theorem Pool.avail_ne_nil (h : x.Pool) (hdepth : x.inflight.length ≤ piplinePktDepth.toNat) :
    x.avail ≠ [] := by
  have hlength := h.perm.length_eq
  rw [List.length_append, List.length_map, List.length_range] at hlength
  intro hempty
  rw [hempty, List.length_nil, Nat.zero_add] at hlength
  exact absurd (hlength ▸ hdepth) (by decide)

end XihuClient

/-! ### Reachable states -/

theorem Transfer.exists_startRounds {t : Transfer} (ht : t.InRange) {x : XihuClient} (h : x.Pool)
    (hidle : x.inflight = []) {n : ℕ} (hn : n ≤ t.depth) :
    ∃ y, t.startRounds n x = some y ∧ y.Pool ∧ y.inflight.length = n := by
  have hpool : XihuClient.Pool { x with ms := t.mission t.depth } := ⟨h.perm, h.pinned⟩
  have hlength := h.perm.length_eq
  rw [hidle, List.map_nil, List.append_nil, List.length_range] at hlength
  have hdepth := t.depth_le_thirty
  have hbuffers : msgBufferNum = 50 := rfl
  obtain ⟨y, new, hfold, hpool', -, -, hinflight, -, -, -, hnew, -⟩ :=
    t.exists_sends (m := x.mem) (n := n) hpool (fun _ => rfl) (by show n ≤ x.avail.length; omega)
  refine ⟨y, (startRounds_eq ht n x).trans hfold, hpool', ?_⟩
  have hsame : XihuClient.inflight { x with ms := t.mission t.depth } = [] := hidle
  rw [hinflight.length_eq, hsame, List.nil_append, hnew]

/-- The pool is intact and at most thirty requests are in flight. -/
theorem Reached.pool {serves : Server β} {reqs resps : ℕ → MsgBuffer} {mem : Memory} {b₀ : β}
    {x : XihuClient} (h : Reached serves (init reqs resps mem) b₀ x) :
    x.Pool ∧ x.inflight.length ≤ piplinePktDepth.toNat := by
  have hinit := pool_init reqs resps mem
  cases h with
  | idle h =>
    obtain ⟨hpool, hidle⟩ := idle_of_sessions hinit rfl h
    exact ⟨hpool, by rw [hidle]; exact Nat.zero_le _⟩
  | @starting _ _ _ _ t n h ht hn hstart =>
    obtain ⟨hpool, hidle⟩ := idle_of_sessions hinit rfl h
    obtain ⟨y, hstart', hpool', hlength⟩ := t.exists_startRounds ht hpool hidle hn
    cases hstart.symm.trans hstart'
    exact ⟨hpool', hlength ▸ hn.trans t.depth_le_thirty⟩
  | @waiting _ _ _ _ _ _ t done h ht hstart hevents =>
    obtain ⟨hpool, hidle⟩ := idle_of_sessions hinit rfl h
    obtain ⟨new, hnew, hfollows, -⟩ := t.follows_of_start ht hpool hidle hstart
    obtain ⟨w, hw, htracks⟩ := t.follows_of_events ht hnew hfollows hevents
    have hcard := htracks.card_pending
    have hnext := htracks.next_eq
    rw [hw.pending, Multiset.coe_card] at hcard
    have hdepth := t.depth_le_thirty
    have hthirty : piplinePktDepth.toNat = 30 := rfl
    exact ⟨hw.pool, by omega⟩

/-- **The pool of message buffers.** In every reachable state each buffer is in `avail` or belongs
to one request in flight, once in all; at most thirty requests are in flight; `avail` is not empty.
A continuation does not fail, and it spares the buffers of the requests in flight and the response
that it copies. The initial loops do not fail either. -/
theorem buffers_never_alias (serves : Server β) (reqs resps : ℕ → MsgBuffer) (mem : Memory)
    (b₀ : β) {x : XihuClient} (h : Reached serves (init reqs resps mem) b₀ x) :
    (x.avail ++ x.inflight.map Request.k).Perm (List.range msgBufferNum) ∧
      x.inflight.length ≤ piplinePktDepth.toNat ∧ x.avail ≠ [] ∧
      (∀ l₁ r resp l₂, x.rpc.responses = l₁ ++ (r, resp) :: l₂ →
        ∃ x', x.handOver (l₁ ++ l₂) r resp = some x' ∧
          Spares (x.rpc.requests ++ (l₁ ++ l₂).map Prod.fst) r resp x x') ∧
      ∀ ts b, Sessions serves (init reqs resps mem) b₀ ts x b → ∀ t : Transfer, t.InRange →
        ∀ n ≤ t.depth, (t.startRounds n x).isSome := by
  obtain ⟨hpool, hdepth⟩ := h.pool
  have havail := hpool.avail_ne_nil hdepth
  refine ⟨hpool.perm, hdepth, havail, fun l₁ r resp l₂ hr => hpool.handOver havail hr,
    fun ts b hsessions t ht n hn => ?_⟩
  obtain ⟨hpool', hidle⟩ := idle_of_sessions (pool_init reqs resps mem) rfl hsessions
  obtain ⟨y, hstart, -⟩ := t.exists_startRounds ht hpool' hidle hn
  rw [hstart]
  rfl

theorem exists_request {x₁ : XihuClient}
    (hstart : readForty.start (newClient fun _ => 0) = some x₁) :
    x₁.rpc.responses = [] ∧ ∃ r l, x₁.rpc.requests = r :: l := by
  obtain ⟨new, hnew, hfollows, -, hresponses⟩ :=
    Transfer.follows_of_start inRange_readForty (pool_init _ _ _) rfl hstart
  have hpending := (Multiset.coe_eq_coe.1 hfollows.pending).length_eq
  rw [inflight, hresponses, List.map_nil, List.append_nil, hnew] at hpending
  exact ⟨hresponses, List.exists_cons_of_length_pos (hpending ▸ Transfer.depth_pos (by decide))⟩

/-- A call for forty blocks has had its first request answered, and its continuation has run. -/
theorem buffers_never_alias_one_completed :
    ∃ x₁ x₂ x₃ r resp, readForty.start (newClient fun _ => 0) = some x₁ ∧
      Events anyServer x₁ () [] x₂ () ∧ x₂.handOver [] r resp = some x₃ ∧
      Events anyServer x₁ () [r] x₃ () ∧ Spares x₂.rpc.requests r resp x₂ x₃ ∧
      (x₃.avail ++ x₃.inflight.map Request.k).Perm (List.range msgBufferNum) ∧
      x₃.inflight.length ≤ 30 ∧ x₃.avail ≠ [] := by
  obtain ⟨x₁, new, hstart, -⟩ :=
    Transfer.exists_start inRange_readForty (pool_init _ _ fun _ => 0) rfl
  obtain ⟨hresponses, r, l, hcons⟩ := exists_request hstart
  have hr : x₁.rpc.requests = [] ++ r :: l := hcons
  have hserved : Events anyServer x₁ () [] (x₁.answered l r (x₁.reqs r.k)) () :=
    .serve .refl hr trivial
  have hanswered : (x₁.answered l r (x₁.reqs r.k)).rpc.responses = [] ++ (r, x₁.reqs r.k) :: [] :=
    congrArg (· ++ [(r, x₁.reqs r.k)]) hresponses
  obtain ⟨-, -, -, hcont, -⟩ := buffers_never_alias anyServer _ _ _ ()
    (.waiting .refl inRange_readForty hstart hserved)
  obtain ⟨x₃, hx₃, hspares⟩ := hcont [] r _ [] hanswered
  rw [List.append_nil, List.map_nil, List.append_nil] at hspares
  have hcompleted := hserved.complete hanswered hx₃
  obtain ⟨hperm, hdepth, havail, -⟩ := buffers_never_alias anyServer _ _ _ ()
    (.waiting .refl inRange_readForty hstart hcompleted)
  exact ⟨x₁, _, x₃, r, _, hstart, hserved, hx₃, hcompleted, hspares, hperm, hdepth, havail⟩

end YcsbC
