import YcsbC.Redis.AsyncInvariant

/-!
# The callbacks of an asynchronous context

A program that uses neither subscriptions nor the monitor gets a reply for each command, in order.
Whatever its callbacks do, the callback of each accepted command is called once: those of the first
commands with the replies that arrive, in their order, and the others without a reply when the
context is freed.

## Main definitions

* `AsyncCall.Regular`: a call with no command of the other kinds.
* `Fifo`: the replies that have been delivered, and the callbacks that wait.

## Main results

* `asyncRun_calls`: the calls of callbacks in any run.
-/

namespace YcsbC

open AsyncContext

/-- A command is neither a subscription nor the monitor. -/
def AsyncCall.Regular : AsyncCall → Prop
  | .command _ cmd => asyncKind cmd = some .regular
  | _ => True

/-- An input with no command of the other kinds. -/
def AsyncInput.Regular : AsyncInput → Prop
  | .call c => c.Regular
  | _ => True

instance : DecidablePred AsyncCall.Regular
  | .command _ cmd => inferInstanceAs (Decidable (asyncKind cmd = some .regular))
  | .disconnect => .isTrue trivial
  | .free => .isTrue trivial
  | .setConnectCallback => .isTrue trivial
  | .setDisconnectCallback => .isTrue trivial

instance : DecidablePred AsyncInput.Regular
  | .call c => inferInstanceAs (Decidable c.Regular)
  | .read _ => .isTrue trivial
  | .write _ => .isTrue trivial

/-- The callbacks of the accepted commands. -/
def callbacks (log : List AsyncEvent) : List RedisCallback := (accepted log).map Prod.fst

/-- The calls that deliver results to callbacks; a callback may be `NULL`. -/
def deliveries (cbs : List RedisCallback) (ds : List (Option RedisReply)) :
    List (RedisCallback × Option RedisReply) :=
  (cbs.zip ds).filter fun p => p.1.fn.isSome

/-- The replies `rs` have been delivered to the first callbacks, and the others wait. -/
structure Fifo (ac : AsyncContext) (rs : List RedisReply) : Prop where
  le : rs.length ≤ (callbacks ac.log).length
  replies : ac.replies = (callbacks ac.log).drop rs.length
  calls : calls ac.log = deliveries (callbacks ac.log) (rs.map some)
  subscribed : ac.subscribed = false
  monitoring : ac.monitoring = false
  invalid : ac.invalid = []
  channels : ac.channels = dictCreate
  patterns : ac.patterns = dictCreate

variable {ac ac' : AsyncContext} {k k' : Wire} {cb : RedisCallback} {cmd : Str}
  {ds : List (Option RedisReply)} {rs : List RedisReply}

/-! ### Deliveries -/

theorem zip_append_of_length_le {α β : Type*} {l : List α} {m : List β} (h : m.length ≤ l.length)
    (l' : List α) : (l ++ l').zip m = l.zip m := by
  induction m generalizing l with
  | nil => rw [List.zip_nil_right, List.zip_nil_right]
  | cons b m ih =>
    obtain _ | ⟨a, l⟩ := l
    · cases h
    · exact congrArg ((a, b) :: ·) (ih (Nat.le_of_succ_le_succ h))

theorem zip_append_singleton {α β : Type*} {l rest : List α} {m : List β} {a : α}
    (h : l.drop m.length = a :: rest) (b : β) : l.zip (m ++ [b]) = l.zip m ++ [(a, b)] := by
  induction m generalizing l with
  | nil =>
    obtain rfl : l = a :: rest := h
    rw [List.nil_append, List.zip_cons_cons, List.zip_nil_right, List.zip_nil_right]
    rfl
  | cons b' m ih =>
    obtain _ | ⟨a', l⟩ := l
    · cases h
    · exact congrArg ((a', b') :: ·) (ih h)

theorem deliveries_append_singleton {cbs rest : List RedisCallback}
    (h : cbs.drop ds.length = cb :: rest) (d : Option RedisReply) :
    deliveries cbs (ds ++ [d]) = deliveries cbs ds ++ called cb d := by
  rw [deliveries, deliveries, zip_append_singleton h, List.filter_append, List.filter_cons,
    List.filter_nil, called]

/-- The callbacks that wait are called without a reply. -/
theorem deliveries_append_dropped (cbs : List RedisCallback) (h : ds.length ≤ cbs.length) :
    deliveries cbs (ds ++ List.replicate (cbs.length - ds.length) none) =
      deliveries cbs ds ++ dropped (cbs.drop ds.length) := by
  generalize hm : cbs.length - ds.length = m
  induction m generalizing ds with
  | zero =>
    rw [List.drop_eq_nil_of_le (Nat.sub_eq_zero_iff_le.1 hm), List.replicate_zero, List.append_nil]
    exact (List.append_nil _).symm
  | succ m ih =>
    obtain ⟨cb, rest, hdrop⟩ : ∃ cb rest, cbs.drop ds.length = cb :: rest := by
      refine List.exists_cons_of_ne_nil fun hnil => ?_
      have := List.drop_eq_nil_iff.1 hnil
      omega
    have hnext : cbs.drop (ds ++ [none]).length = rest := by
      rw [List.length_append, List.length_singleton, ← List.drop_drop, hdrop]
      rfl
    have hlength : (ds ++ [none]).length = ds.length + 1 := List.length_append
    have ih := @ih (ds ++ [none]) (by omega) (by omega)
    rw [List.append_assoc, hnext, deliveries_append_singleton hdrop] at ih
    rw [hdrop, dropped_cons, ← List.append_assoc, ← ih]
    rfl

/-! ### The queue -/

theorem callbacks_deliver (ac : AsyncContext) (cb : RedisCallback) (reply : RedisReply) :
    callbacks (ac.deliver cb reply).log = callbacks ac.log := by
  rw [deliver]
  split_ifs
  · show callbacks (ac.log ++ [.called cb (some reply)]) = _
    rw [callbacks, accepted_append, List.map_append]
    exact List.append_nil _
  · rfl

namespace Fifo

theorem silent (h : Fifo ac rs) (hsilent : Silent ac ac') : Fifo ac' rs where
  le := hsilent.log ▸ h.le
  replies := by rw [hsilent.replies, h.replies, hsilent.log]
  calls := by rw [hsilent.log, h.calls]
  subscribed := hsilent.subscribed.trans h.subscribed
  monitoring := hsilent.monitoring.trans h.monitoring
  invalid := hsilent.invalid.trans h.invalid
  channels := hsilent.channels.trans h.channels
  patterns := hsilent.patterns.trans h.patterns

theorem record {e : AsyncEvent} (h : Fifo ac rs) (haccepted : accepted [e] = [])
    (hcalls : YcsbC.calls [e] = []) : Fifo (ac.record e) rs := by
  have hcallbacks : callbacks (ac.log ++ [e]) = callbacks ac.log := by
    rw [callbacks, accepted_append, haccepted, List.append_nil]
    rfl
  exact
    { h with
      le := by
        show _ ≤ (callbacks (ac.log ++ [e])).length
        rw [hcallbacks]
        exact h.le
      replies := by
        show ac.replies = (callbacks (ac.log ++ [e])).drop _
        rw [hcallbacks]
        exact h.replies
      calls := by
        show YcsbC.calls (ac.log ++ [e]) = deliveries (callbacks (ac.log ++ [e])) _
        rw [hcallbacks, calls_append, hcalls, List.append_nil]
        exact h.calls }

theorem command {ok : Bool} (h : Fifo ac rs) (hregular : asyncKind cmd = some .regular)
    (hrun : redisAsyncCommand ac cb cmd = some (ok, ac')) : Fifo ac' rs := by
  rw [redisAsyncCommand, hregular] at hrun
  split_ifs at hrun
  · obtain ⟨rfl, rfl⟩ := hrun
    exact h
  · have hregister : registerCallback ac cb .regular =
        (true, { ac with replies := ac.replies ++ [cb] }) := by
      rw [registerCallback, if_neg (by rw [h.subscribed]; exact Bool.false_ne_true)]
    simp only [hregister] at hrun
    obtain ⟨rfl, rfl⟩ := hrun
    have hcallbacks : callbacks (ac.log ++ [.accepted cb cmd]) = callbacks ac.log ++ [cb] := by
      rw [callbacks, accepted_append, List.map_append]
      rfl
    exact
      { h with
        le := by
          show _ ≤ (callbacks (ac.log ++ [.accepted cb cmd])).length
          rw [hcallbacks, List.length_append]
          exact Nat.le_add_right_of_le h.le
        replies := by
          show ac.replies ++ [cb] = (callbacks (ac.log ++ [.accepted cb cmd])).drop _
          rw [hcallbacks, List.drop_append_of_le_length h.le, ← h.replies]
        calls := by
          show YcsbC.calls (ac.log ++ [.accepted cb cmd]) =
            deliveries (callbacks (ac.log ++ [.accepted cb cmd])) _
          rw [hcallbacks, deliveries,
            zip_append_of_length_le (by rw [List.length_map]; exact h.le), calls_append, h.calls]
          exact List.append_nil _ }

theorem callbackOf {reply : RedisReply} {cb' : RedisCallback} (h : Fifo ac rs)
    (hof : callbackOf ac cb reply = some (some cb', ac')) :
    ∃ rest, ac.replies = cb' :: rest ∧ ac' = { ac with replies := rest } := by
  rw [callbackOf.eq_def] at hof
  split at hof
  · rename_i cb₁ rest hreplies
    obtain ⟨rfl, rfl⟩ := hof
    exact ⟨rest, hreplies, rfl⟩
  · split at hof
    · cases hof
    · rw [if_neg (by rw [h.subscribed]; exact Bool.false_ne_true),
        if_neg (by rw [h.monitoring]; exact Bool.false_ne_true)] at hof
      cases hof

theorem deliver {rest : List RedisCallback} (h : Fifo ac rs) (hreplies : ac.replies = cb :: rest)
    (reply : RedisReply) : Fifo ({ ac with replies := rest }.deliver cb reply) (rs ++ [reply]) := by
  have hdrop : (callbacks ac.log).drop rs.length = cb :: rest := h.replies.symm.trans hreplies
  have hlt : rs.length < (callbacks ac.log).length :=
    List.length_lt_of_drop_ne_nil (by rw [hdrop]; exact List.cons_ne_nil cb rest)
  have hcalls := calls_deliver { ac with replies := rest } cb reply
  have hcallbacks := callbacks_deliver { ac with replies := rest } cb reply
  rw [deliver_eq]
  exact
    { h with
      le := by
        rw [hcallbacks, List.length_append, List.length_singleton]
        exact hlt
      replies := by
        show rest = _
        rw [hcallbacks, List.length_append, List.length_singleton, ← List.drop_drop, hdrop]
        rfl
      calls := by
        rw [hcallbacks, hcalls, List.map_append, List.map_singleton,
          deliveries_append_singleton (by rw [List.length_map]; exact hdrop)]
        exact congrArg (· ++ _) h.calls }

/-- The callbacks that wait are those of `replies`. -/
theorem pendingCallbacks_eq (h : Fifo ac rs) : pendingCallbacks ac = ac.replies := by
  rw [pendingCallbacks, h.invalid, h.channels, h.patterns, List.append_nil]
  exact (List.append_nil _).trans (List.append_nil _)

/-- **The queue is kept** by regular calls. -/
theorem invariant : AsyncInvariant AsyncCall.Regular fun ac _ rs => Fifo ac rs where
  silent := silent
  command := command
  connected _ h := h.record rfl rfl
  received _ h _ := h.record rfl rfl
  reply h _ hof := by
    obtain ⟨rest, hreplies, rfl⟩ := h.callbackOf hof
    exact h.deliver hreplies _
  idle h _ := (repush_of_not_monitoring h.monitoring _).symm ▸ h

end Fifo

theorem fifo_redisAsyncConnect (script : List (List AsyncCall)) :
    Fifo (redisAsyncConnect script) [] :=
  ⟨Nat.zero_le _, rfl, rfl, rfl, rfl, rfl, rfl, rfl⟩

theorem calls_of_holding {P : AsyncCall → Prop} (h : Holding P (fun ac _ rs => Fifo ac rs) ac) :
    ∃ rs m, calls ac.log = deliveries (callbacks ac.log) (rs.map some ++ List.replicate m none) ∧
      rs.length + m ≤ (callbacks ac.log).length ∧
      rs <+: (RedisReader.repliesOf (received ac.log) .create).1 ∧
      (ac.freed = false → m = 0 ∧ rs = (RedisReader.repliesOf (received ac.log) .create).1) ∧
      (ac.freed = true → rs.length + m = (callbacks ac.log).length ∧
        (ac.freeing = false → ac.err = none → m = 0)) := by
  rcases h with ⟨rs, hfifo, ⟨hfreed, -⟩, hrs⟩ | ⟨es, ac₁, -, rs, hfifo, hends, hprefix⟩
  · refine ⟨rs, 0, ?_, hfifo.le, by rw [hrs], fun _ => ⟨rfl, by rw [hrs]⟩, fun hfreed' => ?_⟩
    · rw [hfifo.calls, List.replicate_zero, List.append_nil]
    · rw [hfreed] at hfreed'
      cases hfreed'
  · have hcallbacks : callbacks ac.log = callbacks ac₁.log := by
      rw [callbacks, hends.log, accepted_append, hends.accepted, List.append_nil]
      rfl
    have hle := hfifo.le
    have hle' : (rs.map some).length ≤ (callbacks ac₁.log).length := by
      rw [List.length_map]
      exact hle
    have hdropped := deliveries_append_dropped (callbacks ac₁.log) hle'
    rw [List.length_map] at hdropped
    refine ⟨rs, (callbacks ac.log).length - rs.length, ?_, by rw [hcallbacks]; omega, hprefix,
      fun hfreed => ?_, fun _ => ⟨by rw [hcallbacks]; omega, fun hfreeing herr => ?_⟩⟩
    · rw [hcallbacks, hdropped, hends.log, calls_append, hends.calls, hfifo.pendingCallbacks_eq,
        hfifo.replies, hfifo.calls]
    · rw [hends.freed] at hfreed
      cases hfreed
    · have hnil := List.drop_eq_nil_iff.1 (hfifo.replies.symm.trans (hends.clean hfreeing herr))
      rw [hcallbacks]
      omega

section Results

variable {respond : Str → Str} {script : List (List AsyncCall)}
  {writes reads : List (Except Errno ℕ)}
  {inputs : List AsyncInput}

theorem Fifo.holding
    (h : asyncRun respond (redisAsyncConnect script) ⟨[], 0, writes, reads⟩ inputs = some (ac, k))
    (hscript : ∀ cs ∈ script, ∀ call ∈ cs, call.Regular)
    (hinputs : ∀ input ∈ inputs, input.Regular) :
    Holding AsyncCall.Regular (fun ac _ rs => Fifo ac rs) ac :=
  Fifo.invariant.asyncRun_connect (fifo_redisAsyncConnect script) hscript
    (fun call hmem => hinputs (.call call) hmem) h

/-- **Each callback is called once, in order.** In any run with regular commands, whatever the
callbacks do, the first callbacks get the replies that arrive, in their order. Until the context is
freed these are all the replies that the reader returns; when it is freed the other callbacks are
called without a reply, and after a disconnection without an error there are none. -/
theorem asyncRun_calls
    (h : asyncRun respond (redisAsyncConnect script) ⟨[], 0, writes, reads⟩ inputs = some (ac, k))
    (hscript : ∀ cs ∈ script, ∀ call ∈ cs, call.Regular)
    (hinputs : ∀ input ∈ inputs, input.Regular) :
    ∃ rs m, calls ac.log =
        deliveries (callbacks ac.log) (rs.map some ++ List.replicate m none) ∧
      rs.length + m ≤ (callbacks ac.log).length ∧
      rs <+: (RedisReader.repliesOf (received ac.log) .create).1 ∧
      (ac.freed = false → m = 0 ∧ rs = (RedisReader.repliesOf (received ac.log) .create).1) ∧
      (ac.freed = true → rs.length + m = (callbacks ac.log).length ∧
        (ac.freeing = false → ac.err = none → m = 0)) :=
  calls_of_holding (Fifo.holding h hscript hinputs)

/-- The callback of the first command sends another one; the reply to the second is for `NULL`, and
the context is closed at the end. -/
theorem asyncRun_calls_ping :
    ∃ ac k rs m, asyncRun (fun _ => "+PONG\r\n+PO\r\n$1\r\nv\r\n".toList)
        (redisAsyncConnect [[.command ⟨some 2, 8⟩ (commandText ["GET".toList, "k".toList])]])
        ⟨[], 0, [.ok 10, .ok 100, .ok 100], [.ok 9, .ok 4, .ok 100]⟩
        [.call (.command ⟨some 1, 7⟩ (commandText ["PING".toList])),
          .call (.command ⟨none, 7⟩ (commandText ["PING".toList])), .write none, .write none,
          .read none, .read none, .write none, .read none, .call .disconnect] = some (ac, k) ∧
      calls ac.log = deliveries (callbacks ac.log) (rs.map some ++ List.replicate m none) ∧
      rs <+: (RedisReader.repliesOf (received ac.log) .create).1 := by
  obtain ⟨⟨ac, k⟩, hrun⟩ := Option.isSome_iff_exists.1 (by decide :
    (asyncRun (fun _ => "+PONG\r\n+PO\r\n$1\r\nv\r\n".toList)
      (redisAsyncConnect [[.command ⟨some 2, 8⟩ (commandText ["GET".toList, "k".toList])]])
      ⟨[], 0, [.ok 10, .ok 100, .ok 100], [.ok 9, .ok 4, .ok 100]⟩
      [.call (.command ⟨some 1, 7⟩ (commandText ["PING".toList])),
        .call (.command ⟨none, 7⟩ (commandText ["PING".toList])), .write none, .write none,
        .read none, .read none, .write none, .read none, .call .disconnect]).isSome)
  obtain ⟨rs, m, hcalls, -, hprefix, -⟩ := asyncRun_calls hrun (by decide) (by decide)
  exact ⟨ac, k, rs, m, hrun, hcalls, hprefix⟩

end Results

end YcsbC
