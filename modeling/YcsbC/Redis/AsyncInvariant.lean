import YcsbC.Redis.AsyncRuns

/-!
# Invariants of an asynchronous context

What is said about the callbacks of a context is an invariant of the few steps that change them: a
command is accepted, bytes are read, and a reply is handed to its callback. Then it holds in any
run, together with the replies that have been taken from the reader.

## Main definitions

* `AsyncInvariant`: a property of contexts that these steps keep.
* `Ends`: how a context ends.
* `Holding`: the property holds, or it held when the context ended.

## Main results

* `AsyncInvariant.asyncRun`: the rule for runs.
-/

namespace YcsbC

open AsyncContext

/-- Nothing changes that has to do with the callbacks: flags are set, or the connection goes on. -/
structure Silent (ac ac' : AsyncContext) : Prop where
  log : ac'.log = ac.log
  replies : ac'.replies = ac.replies
  invalid : ac'.invalid = ac.invalid
  channels : ac'.channels = ac.channels
  patterns : ac'.patterns = ac.patterns
  subscribed : ac'.subscribed = ac.subscribed
  monitoring : ac'.monitoring = ac.monitoring

/-- The context has not been freed, and the functions of the program make calls with `P` only. -/
def AsyncContext.Obeys (P : AsyncCall → Prop) (ac : AsyncContext) : Prop :=
  ac.freed = false ∧ ∀ cs ∈ ac.script, ∀ call ∈ cs, P call

/-- The call of a callback is logged, unless the callback is `NULL`. -/
def AsyncContext.deliver (ac : AsyncContext) (cb : RedisCallback) (reply : RedisReply) :
    AsyncContext :=
  if cb.fn.isSome then ac.record (.called cb (some reply)) else ac

theorem AsyncContext.deliver_eq (ac : AsyncContext) (cb : RedisCallback) (reply : RedisReply) :
    ac.deliver cb reply = { ac with log := (ac.deliver cb reply).log } := by
  rw [deliver]
  split_ifs <;> rfl

theorem calls_deliver (ac : AsyncContext) (cb : RedisCallback) (reply : RedisReply) :
    calls (ac.deliver cb reply).log = calls ac.log ++ called cb (some reply) := by
  rw [deliver, called]
  split_ifs
  · exact calls_append ..
  · exact (List.append_nil _).symm

theorem received_deliver (ac : AsyncContext) (cb : RedisCallback) (reply : RedisReply) :
    received (ac.deliver cb reply).log = received ac.log := by
  rw [deliver]
  split_ifs
  · exact (received_append ..).trans (List.append_nil _)
  · rfl

/-- A monitor waits again: the callback of the last reply goes back to the queue. -/
def AsyncContext.repush (ac : AsyncContext) (cb : RedisCallback) : AsyncContext :=
  if ac.monitoring then { ac with replies := ac.replies ++ [cb] } else ac

theorem AsyncContext.repush_of_monitoring {ac : AsyncContext} (h : ac.monitoring = true)
    (cb : RedisCallback) : ac.repush cb = { ac with replies := ac.replies ++ [cb] } := if_pos h

theorem AsyncContext.repush_of_not_monitoring {ac : AsyncContext} (h : ac.monitoring = false)
    (cb : RedisCallback) : ac.repush cb = ac := if_neg (ne_true_of_eq_false h)

theorem AsyncContext.log_repush (ac : AsyncContext) (cb : RedisCallback) :
    (ac.repush cb).log = ac.log := by
  rw [repush]
  split_ifs <;> rfl

/-- A property of a context, of the callback of the last reply while replies are handed over, and of
the replies that have been taken. It is kept by calls with `P`. -/
structure AsyncInvariant (P : AsyncCall → Prop)
    (I : AsyncContext → Option RedisCallback → List RedisReply → Prop) : Prop where
  silent {ac ac' : AsyncContext} {o : Option RedisCallback} {rs : List RedisReply} :
    I ac o rs → Silent ac ac' → I ac' o rs
  command {ac ac' : AsyncContext} {o : Option RedisCallback} {rs : List RedisReply}
    {source : RedisCallback} {cmd : Str} {ok : Bool} : I ac o rs → P (.command source cmd) →
      redisAsyncCommand ac source cmd = some (ok, ac') → I ac' o rs
  connected {ac : AsyncContext} {rs : List RedisReply} (ok : Bool) :
    I ac none rs → I (ac.record (.connected ok)) none rs
  received {ac : AsyncContext} {rs : List RedisReply} (bytes : Str) :
    I ac none rs → rs = (RedisReader.repliesOf (received ac.log) .create).1 →
      I (ac.record (.received bytes)) (some ⟨none, 0⟩) rs
  reply {ac ac' : AsyncContext} {cb cb' : RedisCallback} {rs : List RedisReply}
      {reply : RedisReply} :
    I ac (some cb) rs → ac.WF → callbackOf ac cb reply = some (some cb', ac') →
      I (ac'.deliver cb' reply) (some cb') (rs ++ [reply])
  idle {ac : AsyncContext} {cb : RedisCallback} {rs : List RedisReply} : I ac (some cb) rs →
    rs = (RedisReader.repliesOf (YcsbC.received ac.log) .create).1 → I (ac.repush cb) none rs

/-- How a context ends: the callbacks that wait are called without a reply. After a disconnection
without an error no command waits. -/
structure Ends (es : List AsyncEvent) (ac ac' : AsyncContext) : Prop where
  freed : ac'.freed = true
  log : ac'.log = ac.log ++ es
  accepted : accepted es = []
  quiet : received es = []
  calls : calls es = dropped (pendingCallbacks ac)
  clean : ac'.freeing = false → ac'.err = none → ac.replies = []

variable {ac ac' : AsyncContext} {k k' : Wire} {cb : RedisCallback} {o : Option RedisCallback}
  {rs : List RedisReply} {P : AsyncCall → Prop}
  {I : AsyncContext → Option RedisCallback → List RedisReply → Prop}

theorem Alive.disconnectNow_ends (h : Alive ac k) (hc : ac.Closing ∨ ac.c.err ≠ none)
    (hrun : redisAsyncDisconnectNow ac = some ac') : ∃ es, Ends es ac ac' := by
  obtain ⟨es, hfreed, hlog, haccepted, hquiet, hcalls, -, herr, -, hreplies⟩ :=
    redisAsyncDisconnectNow_spec h.wf h.inCallback hc hrun
  exact ⟨es, hfreed, hlog, haccepted, hquiet, hcalls,
    fun _ hnone => hreplies (herr.symm.trans hnone)⟩

theorem redisAsyncFreeNow_ends (hwf : ac.WF) (hin : ac.inCallback = false)
    (hfreeing : ac.freeing = true)
    (hrun : redisAsyncFreeNow ac = some ac') : ∃ es, Ends es ac ac' := by
  obtain ⟨es, ac₁, hfree, hfreed, hlog, haccepted, hquiet, hcalls, -, -, hkept⟩ :=
    redisAsyncFreeNow_spec hwf hin (.inr hfreeing)
  obtain rfl := Option.some.inj (hfree.symm.trans hrun)
  refine ⟨es, hfreed, hlog, haccepted, hquiet, hcalls, fun hfalse => ?_⟩
  rw [hkept hfreeing] at hfalse
  cases hfalse

theorem Ends.received_eq {es : List AsyncEvent} (h : Ends es ac ac') :
    received ac'.log = received ac.log := by
  rw [h.log, received_append, h.quiet, List.append_nil]

theorem AsyncContext.Obeys.head (h : ac.Obeys P) : ∀ call ∈ ac.script.headD [], P call := by
  cases hscript : ac.script with
  | nil => exact nofun
  | cons cs script => exact h.2 cs (by rw [hscript]; exact List.mem_cons_self)

theorem AsyncContext.Obeys.tail (h : ac.Obeys P) : ∀ cs ∈ ac.script.tail, ∀ call ∈ cs, P call :=
  fun cs hcs => h.2 cs (List.mem_of_mem_tail hcs)

theorem redisAsyncCommand_script {source : RedisCallback} {cmd : Str} {ok : Bool}
    (h : redisAsyncCommand ac source cmd = some (ok, ac')) : ac'.script = ac.script := by
  rw [redisAsyncCommand] at h
  split_ifs at h
  · obtain ⟨rfl, rfl⟩ := h
    rfl
  · cases hkind : asyncKind cmd with
    | none =>
      rw [hkind] at h
      cases h
    | some kind =>
      have hsame := registerCallback_sameBut ac source kind
      simp only [hkind] at h
      generalize registerCallback ac source kind = out at h hsame
      obtain ⟨_ | _, ac₁⟩ := out
      · obtain ⟨rfl, rfl⟩ := h
        exact hsame.script
      · obtain ⟨rfl, rfl⟩ := h
        exact hsame.script

theorem AsyncContext.Obeys.command {source : RedisCallback} {cmd : Str} {ok : Bool}
    (h : ac.Obeys P) (hcommand : redisAsyncCommand ac source cmd = some (ok, ac')) :
    ac'.Obeys P :=
  ⟨(redisAsyncCommand_extends hcommand).freed.trans h.1,
    (redisAsyncCommand_script hcommand).symm ▸ h.2⟩

theorem callbackOf_none {reply : RedisReply} (h : callbackOf ac cb reply = some (none, ac')) :
    Silent ac ac' := by
  rw [callbackOf.eq_def] at h
  split at h
  · cases h
  · split at h
    · obtain ⟨-, rfl⟩ := h
      constructor <;> rfl
    · split_ifs at h
      · obtain ⟨p, -, heq⟩ := Option.map_eq_some_iff.1 h
        cases heq
      · cases h

/-- The callback of a reply is found in a context whose log stays. -/
theorem callbackOf_log {reply : RedisReply} {o : Option RedisCallback}
    (h : callbackOf ac cb reply = some (o, ac')) :
    ac'.log = ac.log ∧ ac'.script = ac.script := by
  rw [callbackOf.eq_def] at h
  split at h
  · obtain ⟨-, rfl⟩ := h
    exact ⟨rfl, rfl⟩
  · split at h
    · obtain ⟨-, rfl⟩ := h
      exact ⟨rfl, rfl⟩
    · split_ifs at h
      · obtain ⟨p, hsub, heq⟩ := Option.map_eq_some_iff.1 h
        obtain ⟨-, rfl⟩ := heq
        obtain ⟨hsame, -⟩ := redisGetSubscribeCallback_sameBut hsub
        exact ⟨hsame.log, hsame.script⟩
      · obtain ⟨-, rfl⟩ := h
        exact ⟨rfl, rfl⟩

/-- The property holds in a context that is still there, or it held when the context ended; nothing
has been read. -/
def Quietly (P : AsyncCall → Prop)
    (I : AsyncContext → Option RedisCallback → List RedisReply → Prop) (ac ac' : AsyncContext)
    (rs : List RedisReply) : Prop :=
  received ac'.log = received ac.log ∧
    ((I ac' none rs ∧ ac'.Obeys P ∧ ac'.c.reader = ac.c.reader) ∨
      ∃ es ac₁, I ac₁ none rs ∧ Ends es ac₁ ac')

theorem Ends.quietly {es : List AsyncEvent} {ac₁ : AsyncContext} (h : Ends es ac₁ ac')
    (hI : I ac₁ none rs) (hreceived : received ac₁.log = received ac.log) :
    Quietly P I ac ac' rs :=
  ⟨h.received_eq.trans hreceived, .inr ⟨es, ac₁, hI, h⟩⟩

namespace AsyncInvariant

variable (inv : AsyncInvariant P I)

include inv

/-! ### Callbacks -/

theorem callWithin {call : AsyncCall} (h : I ac o rs) (hobeys : ac.Obeys P) (hcall : P call)
    (hrun : callWithin ac call = some ac') : I ac' o rs ∧ ac'.Obeys P := by
  cases call with
  | command source cmd =>
    obtain ⟨⟨ok, ac₁⟩, hcommand, rfl⟩ := Option.map_eq_some_iff.1 hrun
    exact ⟨inv.command h hcall hcommand, hobeys.command hcommand⟩
  | disconnect =>
    obtain rfl := Option.some.inj hrun
    exact ⟨inv.silent h (by constructor <;> rfl), hobeys⟩
  | free =>
    obtain rfl := Option.some.inj hrun
    exact ⟨inv.silent h (by constructor <;> rfl), hobeys⟩
  | setConnectCallback =>
    obtain rfl := Option.some.inj hrun
    rw [redisAsyncSetConnectCallback]
    split_ifs
    · exact ⟨h, hobeys⟩
    · exact ⟨inv.silent h (by constructor <;> rfl), hobeys⟩
  | setDisconnectCallback =>
    obtain rfl := Option.some.inj hrun
    exact ⟨inv.silent h (by constructor <;> rfl), hobeys⟩

theorem foldlM_callWithin {cs : List AsyncCall} (h : I ac o rs) (hobeys : ac.Obeys P)
    (hcs : ∀ call ∈ cs, P call) (hrun : cs.foldlM YcsbC.callWithin ac = some ac') :
    I ac' o rs ∧ ac'.Obeys P := by
  induction cs generalizing ac with
  | nil =>
    obtain rfl := Option.some.inj hrun
    exact ⟨h, hobeys⟩
  | cons call cs ih =>
    rw [List.foldlM_cons] at hrun
    obtain ⟨ac₁, hcall, hrest⟩ := Option.bind_eq_some_iff.1 hrun
    obtain ⟨h₁, hobeys₁⟩ := inv.callWithin h hobeys (hcs call List.mem_cons_self) hcall
    exact ih h₁ hobeys₁ (fun call hmem => hcs call (List.mem_cons_of_mem _ hmem)) hrest

theorem runCallback {reply : RedisReply} (h : I (ac.deliver cb reply) o rs) (hobeys : ac.Obeys P)
    (hrun : redisRunCallback ac cb (some reply) = some ac') : I ac' o rs ∧ ac'.Obeys P := by
  rw [redisRunCallback] at hrun
  rw [deliver] at h
  cases hfn : cb.fn with
  | none =>
    simp only [hfn] at hrun
    obtain rfl := Option.some.inj hrun
    rw [if_neg (by rw [hfn]; exact Bool.false_ne_true)] at h
    exact ⟨h, hobeys⟩
  | some f =>
    simp only [hfn] at hrun
    rw [if_pos (by rw [hfn]; rfl)] at h
    obtain ⟨ac₁, hcalls, rfl⟩ := Option.map_eq_some_iff.1 hrun
    have hbegin : I { ac.record (.called cb (some reply)) with
        inCallback := true, script := ac.script.tail } o rs :=
      inv.silent h (by constructor <;> rfl)
    obtain ⟨h₁, hobeys₁⟩ := inv.foldlM_callWithin hbegin
      ⟨hobeys.1, hobeys.tail⟩ hobeys.head hcalls
    exact ⟨inv.silent h₁ (by constructor <;> rfl), hobeys₁⟩

/-- A reply is handed over to its callback. -/
theorem handOver {cb₁ : RedisCallback} {ac₁ ac₂ : AsyncContext} {reply : RedisReply}
    (h : I ac (some cb) rs) (hobeys : ac.Obeys P) (ha : Alive ac k)
    (hof : callbackOf ac cb reply = some (some cb₁, ac₁))
    (hcallback : redisRunCallback ac₁ cb₁ (some reply) = some ac₂) :
    I ac₂ (some cb₁) (rs ++ [reply]) ∧ ac₂.Obeys P ∧
      YcsbC.received ac₂.log = YcsbC.received ac.log ∧ ac₂.c.reader = ac.c.reader ∧ ac₂.WF ∧
      ac₂.inCallback = false := by
  obtain ⟨halive, -, hc⟩ := ha.callbackOf hof
  obtain ⟨hlog, hscript⟩ := callbackOf_log hof
  obtain ⟨es, hes, -⟩ := redisRunCallback_extends halive.inCallback hcallback
  obtain ⟨h₂, hobeys₂⟩ := inv.runCallback (inv.reply h ha.wf hof)
    ⟨halive.freed, hscript ▸ hobeys.2⟩ hcallback
  have hreceived : YcsbC.received ac₂.log = YcsbC.received ac.log := by
    rw [hes.log, received_append, hes.quiet, List.append_nil, hlog]
  have hreader : ac₂.c.reader = ac.c.reader := by
    rw [hes.c, hc (Option.some_ne_none cb₁)]
  exact ⟨h₂, hobeys₂, hreceived, hreader, hes.wf halive.wf,
    hes.inCallback.trans halive.inCallback⟩

/-- **The loop over the replies** hands over those that a client gets who asks until there are no
more. -/
theorem processLoop {n : ℕ} (h : I ac (some cb) rs) (hobeys : ac.Obeys P) (ha : Alive ac k)
    (hrun : processLoop n cb ac = some ac') :
    YcsbC.received ac'.log = YcsbC.received ac.log ∧ ∃ rs',
      ((∃ ac₁ cb', I ac₁ (some cb') (rs ++ rs') ∧ ac₁.repush cb' = ac') ∧ ac'.Obeys P ∧
          RedisReader.repliesFor n ac.c.reader = (rs', ac'.c.reader)) ∨
        ((∃ es ac₁ o, I ac₁ o (rs ++ rs') ∧ Ends es ac₁ ac') ∧
          rs' <+: (RedisReader.repliesFor n ac.c.reader).1) := by
  induction n generalizing cb ac rs with
  | zero => cases hrun
  | succ n ih =>
    rw [YcsbC.processLoop] at hrun
    obtain ⟨ok, o, c, hreply⟩ : ∃ ok o c, redisGetReplyFromReader ac.c = (ok, o, c) :=
      ⟨_, _, _, rfl⟩
    obtain ⟨hobuf, hreader, herr, hok⟩ := redisGetReplyFromReader_keeps hreply
    have hnext := ha.of_obuf_eq hobuf
    have hcurrent : I { ac with c := c } (some cb) rs := inv.silent h (by constructor <;> rfl)
    have hc : I { ac with c := c } (some cb) (rs ++ []) := by
      rwa [List.append_nil]
    rw [hreply] at hrun
    cases ok with
    | false =>
      obtain ⟨es, hends⟩ := hnext.disconnectNow_ends (.inr (herr rfl)) hrun
      exact ⟨hends.received_eq, [], .inr ⟨⟨es, _, _, hc, hends⟩, List.nil_prefix⟩⟩
    | true =>
      cases o with
      | none =>
        have hget : ac.c.reader.getReply = (none, c.reader) :=
          Prod.ext (hok rfl).1.symm hreader.symm
        have hfor : RedisReader.repliesFor (n + 1) ac.c.reader = ([], c.reader) := by
          rw [RedisReader.repliesFor, hget]
        dsimp only at hrun
        split_ifs at hrun with hend hmonitoring
        · rw [Bool.and_eq_true, Bool.and_eq_true] at hend
          obtain ⟨es, hends⟩ := hnext.disconnectNow_ends (.inl (.inl hend.1.1)) hrun
          exact ⟨hends.received_eq, [], .inr ⟨⟨es, _, _, hc, hends⟩, List.nil_prefix⟩⟩
        · obtain rfl := Option.some.inj hrun
          exact ⟨rfl, [], .inl ⟨⟨_, cb, hc, if_pos hmonitoring⟩, hobeys, hfor⟩⟩
        · obtain rfl := Option.some.inj hrun
          exact ⟨rfl, [], .inl ⟨⟨_, cb, hc, if_neg hmonitoring⟩, hobeys, hfor⟩⟩
      | some reply =>
        have hget : ac.c.reader.getReply = (some reply, c.reader) :=
          Prod.ext (hok rfl).1.symm hreader.symm
        have hfor : RedisReader.repliesFor (n + 1) ac.c.reader =
            (reply :: (RedisReader.repliesFor n c.reader).1,
              (RedisReader.repliesFor n c.reader).2) := by
          rw [RedisReader.repliesFor, hget]
        rw [hfor]
        dsimp only at hrun
        split at hrun
        · cases hrun
        · rename_i ac₁ hof
          obtain ⟨halive, herr', -⟩ := hnext.callbackOf hof
          have hsilent := callbackOf_none hof
          obtain ⟨es, hends⟩ := halive.disconnectNow_ends (.inr (herr' rfl)) hrun
          refine ⟨hends.received_eq.trans (by rw [hsilent.log]), [], .inr ⟨?_, List.nil_prefix⟩⟩
          exact ⟨es, _, _, inv.silent hc hsilent, hends⟩
        · rename_i cb₁ ac₁ hof
          obtain ⟨halive, -⟩ := hnext.callbackOf hof
          obtain ⟨ac₂, hcallback, hrest⟩ := Option.bind_eq_some_iff.1 hrun
          obtain ⟨h₂, hobeys₂, hreceived, hreader₂, hwf, hin⟩ :=
            inv.handOver hcurrent hobeys hnext hof hcallback
          split_ifs at hrest with hfreeing
          · rw [Bool.and_eq_true] at hfreeing
            obtain ⟨es', hends⟩ := redisAsyncFreeNow_ends hwf hin hfreeing.2 hrest
            exact ⟨hends.received_eq.trans hreceived, [reply],
              .inr ⟨⟨es', ac₂, _, h₂, hends⟩, ⟨_, rfl⟩⟩⟩
          · obtain ⟨hreceived', rs', hrs⟩ :=
              ih h₂ hobeys₂ (halive.callback hcallback hfreeing) hrest
            have happend : rs ++ [reply] ++ rs' = rs ++ reply :: rs' := List.append_assoc ..
            rw [happend, hreader₂] at hrs
            refine ⟨hreceived'.trans hreceived, reply :: rs',
              hrs.imp (And.imp_right (And.imp_right fun heq => ?_))
                (And.imp_right fun hprefix => ?_)⟩
            · rw [heq]
            · exact List.cons_prefix_cons.2 ⟨rfl, hprefix⟩

/-! ### Calls -/

theorem run {call : AsyncCall} (h : I ac none rs) (hobeys : ac.Obeys P) (ha : Alive ac k)
    (hcall : P call) (hrun : call.run ac = some ac') : Quietly P I ac ac' rs := by
  cases call with
  | command source cmd =>
    obtain ⟨⟨ok, ac₁⟩, hcommand, rfl⟩ := Option.map_eq_some_iff.1 hrun
    have hes := redisAsyncCommand_extends hcommand
    refine ⟨by rw [hes.log, received_append, hes.quiet, List.append_nil],
      .inl ⟨inv.command h hcall hcommand, hobeys.command hcommand, by rw [hes.c]⟩⟩
  | disconnect =>
    rw [AsyncCall.run, redisAsyncDisconnect] at hrun
    have hflag : I { ac with disconnecting := true } none rs :=
      inv.silent h (by constructor <;> rfl)
    split_ifs at hrun
    · have halive : Alive { ac with disconnecting := true } k :=
        ha.extends (extends_flags ac ac.onConnect ac.onDisconnect (fun _ => rfl) id id) ha.freeing
      obtain ⟨es, hends⟩ := halive.disconnectNow_ends (.inl (.inl rfl)) hrun
      exact hends.quietly hflag rfl
    · obtain rfl := Option.some.inj hrun
      exact ⟨rfl, .inl ⟨hflag, hobeys, rfl⟩⟩
  | free =>
    rw [AsyncCall.run, redisAsyncFree] at hrun
    obtain ⟨es, hends⟩ := redisAsyncFreeNow_ends
      (show WF { ac with freeing := true } from ⟨ha.wf.channels, ha.wf.patterns⟩) ha.inCallback rfl
      ((if_neg (ne_true_of_eq_false ha.inCallback)).symm.trans hrun)
    exact hends.quietly (inv.silent h (by constructor <;> rfl)) rfl
  | setConnectCallback =>
    obtain rfl := Option.some.inj hrun
    rw [redisAsyncSetConnectCallback]
    split_ifs
    · exact ⟨rfl, .inl ⟨h, hobeys, rfl⟩⟩
    · exact ⟨rfl, .inl ⟨inv.silent h (by constructor <;> rfl), hobeys, rfl⟩⟩
  | setDisconnectCallback =>
    obtain rfl := Option.some.inj hrun
    exact ⟨rfl, .inl ⟨inv.silent h (by constructor <;> rfl), hobeys, rfl⟩⟩

theorem runOnConnect {ok : Bool} (h : I ac none rs) (hobeys : ac.Obeys P) (ha : Alive ac k)
    (hrun : runOnConnect ac ok = some ac') :
    YcsbC.received ac'.log = YcsbC.received ac.log ∧ I ac' none rs ∧ ac'.Obeys P ∧
      ac'.c.reader = ac.c.reader := by
  obtain ⟨es, hes, -⟩ := ha.runOnConnect hrun
  refine ⟨by rw [hes.log, received_append, hes.quiet, List.append_nil], ?_⟩
  rw [← and_assoc]
  refine ⟨?_, by rw [hes.c]⟩
  rw [YcsbC.runOnConnect] at hrun
  split_ifs at hrun
  · have hbegin : I { ac.record (.connected ok) with script := ac.script.tail } none rs :=
      inv.silent (inv.connected ok h) (by constructor <;> rfl)
    have halive : Alive { ac.record (.connected ok) with script := ac.script.tail } k :=
      ha.extends (extends_connected ac ok) ha.freeing
    have hcs := hobeys.head
    have htail : AsyncContext.Obeys P { ac.record (.connected ok) with script := ac.script.tail } :=
      ⟨hobeys.1, hobeys.tail⟩
    clear hes
    generalize ac.script.headD [] = cs at hrun hcs
    generalize { ac.record (.connected ok) with script := ac.script.tail } = ac₀ at *
    induction cs generalizing ac₀ with
    | nil =>
      obtain rfl := Option.some.inj hrun
      exact ⟨hbegin, htail⟩
    | cons call cs ih =>
      rw [List.foldlM_cons] at hrun
      obtain ⟨ac₁, hcall, hrest⟩ := Option.bind_eq_some_iff.1 hrun
      obtain ⟨hcall, hfreed⟩ := Option.filter_eq_some_iff.1 hcall
      obtain ⟨es, hes, -, hfreeing⟩ := halive.run_extends hcall (by simpa using hfreed)
      rcases (inv.run hbegin htail halive (hcs call List.mem_cons_self) hcall).2 with
        ⟨h₁, hobeys₁, -⟩ | ⟨es', ac₂, -, hends⟩
      · exact ih (fun call hmem => hcs call (List.mem_cons_of_mem _ hmem)) ac₁ h₁
          (halive.extends hes hfreeing) hobeys₁ hrest
      · rw [hends.freed] at hfreed
        cases hfreed
  · obtain rfl := Option.some.inj hrun
    exact ⟨h, hobeys⟩

/-! ### Events -/

theorem handleEvent {sock : Option Errno} {ok : Bool} (h : I ac none rs) (hobeys : ac.Obeys P)
    (ha : Alive ac k) (hrun : handleEvent ac sock = some (ok, ac')) :
    Quietly P I ac ac' rs ∧
      (ok = true → I ac' none rs ∧ ac'.Obeys P ∧ ac'.c.reader = ac.c.reader) := by
  rw [YcsbC.handleEvent] at hrun
  split_ifs at hrun
  · obtain ⟨rfl, rfl⟩ := hrun
    exact ⟨⟨rfl, .inl ⟨h, hobeys, rfl⟩⟩, fun _ => ⟨h, hobeys, rfl⟩⟩
  · obtain ⟨⟨b, ac₁⟩, hconnect, heq⟩ := Option.map_eq_some_iff.1 hrun
    obtain ⟨rfl, rfl⟩ := heq
    cases sock with
    | none =>
      obtain ⟨ac₂, hon, heq⟩ := Option.map_eq_some_iff.1 hconnect
      obtain ⟨rfl, rfl⟩ := heq
      have hconnected : I { ac with connected := true } none rs :=
        inv.silent h (by constructor <;> rfl)
      have halive : Alive { ac with connected := true } k :=
        ⟨ha.freed, ha.inCallback, ha.freeing, ⟨ha.wf.channels, ha.wf.patterns⟩, ha.texts,
          ha.writing, ha.reading⟩
      obtain ⟨hreceived, hkept⟩ := inv.runOnConnect hconnected hobeys halive hon
      exact ⟨⟨hreceived, .inl hkept⟩, fun _ => hkept⟩
    | some e =>
      have herr : Alive { ac with c := { ac.c with err := some (.io e) } } k := ha.of_obuf_eq rfl
      have hfailed : I { ac with c := { ac.c with err := some (.io e) } } none rs :=
        inv.silent h (by constructor <;> rfl)
      rw [redisAsyncHandleConnect] at hconnect
      split_ifs at hconnect with hprogress
      · obtain ⟨rfl, rfl⟩ := hconnect
        exact ⟨⟨rfl, .inl ⟨hfailed, hobeys, rfl⟩⟩, fun _ => ⟨hfailed, hobeys, rfl⟩⟩
      · obtain ⟨ac₂, hend, heq⟩ := Option.map_eq_some_iff.1 hconnect
        obtain ⟨rfl, rfl⟩ := heq
        obtain ⟨ac₃, hon, hdisconnect⟩ := Option.bind_eq_some_iff.1 hend
        obtain ⟨es, hes, hfreeing⟩ := herr.runOnConnect hon
        obtain ⟨hreceived, h₃, -⟩ := inv.runOnConnect hfailed hobeys herr hon
        obtain ⟨es', hends⟩ := (herr.extends hes hfreeing).disconnectNow_ends
          (.inr (by rw [hes.c]; exact Option.some_ne_none _)) hdisconnect
        exact ⟨hends.quietly h₃ hreceived, fun hok => absurd hok Bool.false_ne_true⟩

theorem handleWrite {sock : Option Errno} (h : I ac none rs) (hobeys : ac.Obeys P) (ha : Alive ac k)
    (hrun : redisAsyncHandleWrite ac k sock = some (ac', k')) : Quietly P I ac ac' rs := by
  rw [redisAsyncHandleWrite] at hrun
  split at hrun
  · cases hrun
  · rename_i ac₁ hevent
    obtain ⟨rfl, rfl⟩ := hrun
    exact (inv.handleEvent h hobeys ha hevent).1
  · rename_i ac₁ hevent
    have halive : Alive ac₁ k := ha.handleEvent hevent
    obtain ⟨⟨hreceived, -⟩, hon⟩ := inv.handleEvent h hobeys ha hevent
    obtain ⟨h₁, hobeys₁, hreader⟩ := hon rfl
    split at hrun
    · cases hrun
    · rename_i c k₁ hwrite
      obtain ⟨hobuf, -, -, hsent, herr⟩ := redisBufferWrite_keeps hwrite
      rw [hsent rfl] at hobuf
      obtain ⟨ac₂, hdisconnect, heq⟩ := Option.map_eq_some_iff.1 hrun
      obtain ⟨rfl, rfl⟩ := heq
      obtain ⟨es, hends⟩ := (halive.of_obuf_eq (List.append_cancel_left hobuf)).disconnectNow_ends
        (.inr fun hnone => Bool.false_ne_true (herr.1 hnone)) hdisconnect
      exact hends.quietly (inv.silent h₁ (by constructor <;> rfl)) hreceived
    · rename_i c k₁ hwrite
      obtain ⟨-, -, hreader', -⟩ := redisBufferWrite_keeps hwrite
      obtain ⟨rfl, rfl⟩ := hrun
      exact ⟨hreceived,
        .inl ⟨inv.silent h₁ (by constructor <;> rfl), hobeys₁, hreader'.trans hreader⟩⟩

end AsyncInvariant

/-- The property holds with the replies to the bytes that have been read, or it held with the first
of them when the context ended. -/
def Holding (P : AsyncCall → Prop)
    (I : AsyncContext → Option RedisCallback → List RedisReply → Prop) (ac : AsyncContext) : Prop :=
  (∃ rs, I ac none rs ∧ ac.Obeys P ∧
      RedisReader.repliesOf (received ac.log) .create = (rs, ac.c.reader)) ∨
    ∃ es ac₁ o rs, I ac₁ o rs ∧ Ends es ac₁ ac ∧
      rs <+: (RedisReader.repliesOf (received ac.log) .create).1

theorem Quietly.holding (h : Quietly P I ac ac' rs)
    (hrs : RedisReader.repliesOf (received ac.log) .create = (rs, ac.c.reader)) :
    Holding P I ac' := by
  obtain ⟨hreceived, ⟨hI, hobeys, hreader⟩ | ⟨es, ac₁, hI, hends⟩⟩ := h
  · exact .inl ⟨rs, hI, hobeys, by rw [hreceived, hrs, hreader]⟩
  · exact .inr ⟨es, ac₁, none, rs, hI, hends, by rw [hreceived, hrs]⟩

/-- Nothing is read, or the next piece of what the server has sent. -/
def ReadsNext (respond : Str → Str) (ac : AsyncContext) (k : Wire) (ac' : AsyncContext)
    (k' : Wire) : Prop :=
  (received ac'.log = received ac.log ∧ (ac'.freed = false → k'.received = k.received)) ∨
    (received ac'.log = received ac.log ++ [readBytes respond k k'] ∧
      k'.received = k.received + (readBytes respond k k').length ∧
      (readBytes respond k k').length ≤ 1024 * 16)

/-- A write reads nothing. -/
theorem redisAsyncHandleWrite_received {sock : Option Errno}
    (h : redisAsyncHandleWrite ac k sock = some (ac', k')) : k'.received = k.received := by
  rw [redisAsyncHandleWrite] at h
  split at h
  · cases h
  · obtain ⟨rfl, rfl⟩ := h
    rfl
  · split at h
    · cases h
    · rename_i hwrite
      obtain ⟨-, hreceived, -⟩ := redisBufferWrite_keeps hwrite
      obtain ⟨ac₂, -, heq⟩ := Option.map_eq_some_iff.1 h
      obtain ⟨rfl, rfl⟩ := heq
      exact hreceived
    · rename_i hwrite
      obtain ⟨-, hreceived, -⟩ := redisBufferWrite_keeps hwrite
      obtain ⟨rfl, rfl⟩ := h
      exact hreceived

theorem repliesOf_append_singleton (pieces : List Str) (piece : Str) (r : RedisReader) :
    RedisReader.repliesOf (pieces ++ [piece]) r =
      ((RedisReader.repliesOf pieces r).1 ++
          ((RedisReader.repliesOf pieces r).2.feed piece).replies.1,
        ((RedisReader.repliesOf pieces r).2.feed piece).replies.2) := by
  induction pieces generalizing r with
  | nil => simp [RedisReader.repliesOf]
  | cons piece' pieces ih =>
    rw [List.cons_append, RedisReader.repliesOf, ih, RedisReader.repliesOf]
    simp only [List.append_assoc]

namespace AsyncInvariant

variable (inv : AsyncInvariant P I) {respond : Str → Str}

include inv

theorem handleRead {sock : Option Errno} (h : I ac none rs) (hobeys : ac.Obeys P) (ha : Alive ac k)
    (hrs : RedisReader.repliesOf (YcsbC.received ac.log) .create = (rs, ac.c.reader))
    (hrun : redisAsyncHandleRead respond ac k sock = some (ac', k')) :
    Holding P I ac' ∧ ReadsNext respond ac k ac' k' := by
  rw [redisAsyncHandleRead] at hrun
  split at hrun
  · cases hrun
  · rename_i ac₁ hevent
    obtain ⟨rfl, rfl⟩ := hrun
    have hquiet := (inv.handleEvent h hobeys ha hevent).1
    exact ⟨hquiet.holding hrs, .inl ⟨hquiet.1, fun _ => rfl⟩⟩
  · rename_i ac₁ hevent
    have halive : Alive ac₁ k := ha.handleEvent hevent
    obtain ⟨⟨hreceived, -⟩, hon⟩ := inv.handleEvent h hobeys ha hevent
    obtain ⟨h₁, hobeys₁, hreader⟩ := hon rfl
    split at hrun
    · cases hrun
    · rename_i c k₁ hread
      obtain ⟨hsent, hobuf, herr, -⟩ := redisBufferRead_feeds hread
      obtain ⟨ac₂, hdisconnect, heq⟩ := Option.map_eq_some_iff.1 hrun
      obtain ⟨rfl, rfl⟩ := heq
      obtain ⟨es, hends⟩ := (halive.of_obuf_eq hobuf).disconnectNow_ends
        (.inr fun hnone => Bool.false_ne_true (herr.1 hnone)) hdisconnect
      have hquiet : Quietly P I ac ac' rs :=
        hends.quietly (inv.silent h₁ (by constructor <;> rfl)) hreceived
      refine ⟨hquiet.holding hrs, .inl ⟨hquiet.1, fun hfreed => ?_⟩⟩
      rw [hends.freed] at hfreed
      cases hfreed
    · rename_i c k₁ hread
      obtain ⟨hsent, hobuf, -, hfeed⟩ := redisBufferRead_feeds hread
      obtain ⟨hcount, hle, hfeed⟩ := hfeed rfl
      obtain ⟨ac₂, hprocess, heq⟩ := Option.map_eq_some_iff.1 hrun
      obtain ⟨rfl, rfl⟩ := heq
      have hnext : I { ac₁.record (.received (readBytes respond k k')) with
          c := c, reading := true } (some ⟨none, 0⟩) rs :=
        inv.silent (inv.received _ h₁ (by rw [hreceived, hrs])) (by constructor <;> rfl)
      obtain ⟨hsame, rs', hrs'⟩ :=
        inv.processLoop hnext hobeys₁ (halive.received hread) hprocess
      have hlog : YcsbC.received ac'.log =
          YcsbC.received ac.log ++ [readBytes respond k k'] := by
        rw [hsame]
        exact (received_append ..).trans (congrArg (· ++ _) hreceived)
      have hreplies := repliesOf_append_singleton (YcsbC.received ac.log) (readBytes respond k k')
        .create
      rw [hrs, ← hreader, ← hfeed, ← hlog] at hreplies
      refine ⟨?_, .inr ⟨hlog, hcount, hle⟩⟩
      rcases hrs' with ⟨⟨ac₂, cb', h₂, hrepush⟩, hobeys', hfor⟩ |
        ⟨⟨es, ac₂, o, h₂, hends⟩, hprefix⟩
      · have hall : RedisReader.repliesOf (YcsbC.received ac'.log) .create =
            (rs ++ rs', ac'.c.reader) := by
          rw [hreplies, RedisReader.replies,
            show RedisReader.repliesFor _ c.reader = _ from hfor]
        refine .inl ⟨rs ++ rs', ?_, hobeys', hall⟩
        rw [← hrepush, log_repush] at hall
        rw [← hrepush]
        exact inv.idle h₂ (by rw [hall])
      · refine .inr ⟨es, ac₂, o, rs ++ rs', h₂, hends, ?_⟩
        rw [hreplies]
        exact (List.prefix_append_right_inj rs).2 hprefix

/-! ### Runs -/

theorem step {input : AsyncInput} (h : I ac none rs) (hobeys : ac.Obeys P) (ha : Alive ac k)
    (hinput : ∀ call, input = .call call → P call)
    (hrs : RedisReader.repliesOf (YcsbC.received ac.log) .create = (rs, ac.c.reader))
    (hstep : asyncStep respond ac k input = some (ac', k')) :
    Holding P I ac' ∧ ReadsNext respond ac k ac' k' := by
  rw [asyncStep.eq_def, if_neg (by rw [ha.freed]; exact Bool.false_ne_true)] at hstep
  cases input with
  | call call =>
    obtain ⟨ac₁, hcall, heq⟩ := Option.map_eq_some_iff.1 hstep
    obtain ⟨rfl, rfl⟩ := heq
    have hquiet := inv.run h hobeys ha (hinput call rfl) hcall
    exact ⟨hquiet.holding hrs, .inl ⟨hquiet.1, fun _ => rfl⟩⟩
  | read sock => exact inv.handleRead h hobeys ha hrs hstep
  | write sock =>
    have hquiet := inv.handleWrite h hobeys ha hstep
    exact ⟨hquiet.holding hrs, .inl ⟨hquiet.1, fun _ => redisAsyncHandleWrite_received hstep⟩⟩

/-- **The rule for runs.** Whatever the steps keep holds in any run. -/
theorem asyncRun {inputs : List AsyncInput} (h : Holding P I ac) (ha : Alive ac k ∨ Ended ac k)
    (hinputs : ∀ call, AsyncInput.call call ∈ inputs → P call)
    (hrun : asyncRun respond ac k inputs = some (ac', k')) : Holding P I ac' := by
  induction inputs generalizing ac k with
  | nil =>
    obtain ⟨rfl, rfl⟩ := hrun
    exact h
  | cons input inputs ih =>
    rcases ha with halive | hended
    · rw [YcsbC.asyncRun, List.foldlM_cons] at hrun
      obtain ⟨⟨ac₁, k₁⟩, hstep, hrest⟩ := Option.bind_eq_some_iff.1 hrun
      refine ih ?_ (halive.step hstep)
        (fun call hmem => hinputs call (List.mem_cons_of_mem _ hmem)) hrest
      rcases h with ⟨rs, hI, hobeys, hrs⟩ | ⟨es, ac₀, o, rs, -, hends, -⟩
      · exact (inv.step hI hobeys halive
          (fun call heq => hinputs call (heq ▸ List.mem_cons_self)) hrs hstep).1
      · have hfreed := halive.freed
        rw [hends.freed] at hfreed
        cases hfreed
    · obtain ⟨rfl, -⟩ := asyncRun_of_freed hended.freed hrun
      exact h

theorem asyncRun_connect {script : List (List AsyncCall)} {writes reads : List (Except Errno ℕ)}
    {inputs : List AsyncInput} (h : I (redisAsyncConnect script) none [])
    (hscript : ∀ cs ∈ script, ∀ call ∈ cs, P call)
    (hinputs : ∀ call, AsyncInput.call call ∈ inputs → P call)
    (hrun : YcsbC.asyncRun respond (redisAsyncConnect script) ⟨[], 0, writes, reads⟩ inputs =
      some (ac', k')) : Holding P I ac' :=
  inv.asyncRun (.inl ⟨[], h, ⟨rfl, hscript⟩, rfl⟩)
    (.inl (alive_redisAsyncConnect script writes reads)) hinputs hrun

end AsyncInvariant

end YcsbC
