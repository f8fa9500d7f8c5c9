import YcsbC.Redis.AsyncFree

/-!
# Runs of an asynchronous context

In any order of calls and events, whatever the callbacks do: what is written are the texts of the
accepted commands, a write is scheduled as long as some of it is left, and a read as soon as
anything has been written. When the context is closed, every callback that is still there is called.

## Main definitions

* `Alive`: what holds of a context between the events, as long as it has not been freed.
* `Ended`: what holds of it afterwards.

## Main results

* `asyncRun_writes`: the bytes and the scheduled events.
* `asyncRun_free`: `redisAsyncFree` after any run.
-/

namespace YcsbC

open AsyncContext

/-- A context that has not been freed, between the events. -/
structure Alive (ac : AsyncContext) (k : Wire) : Prop where
  freed : ac.freed = false
  inCallback : ac.inCallback = false
  freeing : ac.freeing = false
  wf : ac.WF
  texts : k.sent ++ ac.c.obuf = texts (accepted ac.log)
  writing : ac.c.obuf ≠ [] → ac.writing = true
  reading : k.sent ≠ [] → ac.reading = true

/-- A context that has been freed. -/
structure Ended (ac : AsyncContext) (k : Wire) : Prop where
  freed : ac.freed = true
  sent : k.sent <+: texts (accepted ac.log)

variable {ac ac' ac'' : AsyncContext} {k k' : Wire} {es : List AsyncEvent}

theorem Alive.texts_extends (h : Alive ac k) (hes : Extends es ac ac') :
    k.sent ++ ac'.c.obuf = YcsbC.texts (accepted ac'.log) := by
  rw [hes.c, hes.log, accepted_append, texts_append, ← h.texts]
  exact (List.append_assoc ..).symm

/-- Calls that do not free the context. -/
theorem Alive.extends (h : Alive ac k) (hes : Extends es ac ac') (hfreeing : ac'.freeing = false) :
    Alive ac' k where
  freed := hes.freed.trans h.freed
  inCallback := hes.inCallback.trans h.inCallback
  freeing := hfreeing
  wf := hes.wf h.wf
  texts := h.texts_extends hes
  writing hne := by
    by_cases hnil : accepted es = []
    · rw [hes.c, hnil] at hne
      exact hes.writing (h.writing fun heq => hne (by rw [heq]; rfl))
    · exact hes.wakes hnil
  reading hne := hes.reading.trans (h.reading hne)

theorem Alive.disconnectNow (h : Alive ac k) (hc : ac.Closing ∨ ac.c.err ≠ none)
    (hrun : redisAsyncDisconnectNow ac = some ac') : Ended ac' k := by
  obtain ⟨es, hfreed, hlog, haccepted, -⟩ :=
    redisAsyncDisconnectNow_spec h.wf h.inCallback hc hrun
  refine ⟨hfreed, ?_⟩
  rw [hlog, accepted_append, haccepted, List.append_nil, ← h.texts]
  exact List.prefix_append ..

/-- A callback has called `redisAsyncFree`. -/
theorem Alive.extends_free (h : Alive ac k) (hes : Extends es ac ac')
    (hfreeing : ac'.freeing = true)
    (hrun : redisAsyncFreeNow ac' = some ac'') : Ended ac'' k := by
  obtain ⟨es', ac₁, hfree, hfreed, hlog, haccepted, -⟩ :=
    redisAsyncFreeNow_spec (hes.wf h.wf) (hes.inCallback.trans h.inCallback) (.inr hfreeing)
  obtain rfl := Option.some.inj (hfree.symm.trans hrun)
  refine ⟨hfreed, ?_⟩
  rw [hlog, accepted_append, haccepted, List.append_nil, ← h.texts_extends hes]
  exact List.prefix_append ..

/-- What `redisAsyncFree` leaves. -/
theorem Alive.free (h : Alive ac k) :
    ∃ es ac', redisAsyncFree ac = some ac' ∧ ac'.freed = true ∧ ac'.log = ac.log ++ es ∧
      accepted es = [] ∧ received es = [] ∧ calls es = dropped (pendingCallbacks ac) := by
  obtain ⟨es, ac', hfree, hfreed, hlog, haccepted, hquiet, hcalls, -⟩ :=
    redisAsyncFreeNow_spec (show WF { ac with freeing := true } from ⟨h.wf.channels, h.wf.patterns⟩)
      h.inCallback (.inr rfl)
  refine ⟨es, ac', ?_, hfreed, hlog, haccepted, hquiet, hcalls⟩
  exact (if_neg (ne_true_of_eq_false h.inCallback)).trans hfree

/-! ### Calls -/

theorem redisAsyncCommand_freeing {cb : RedisCallback} {cmd : Str} {ok : Bool}
    (h : redisAsyncCommand ac cb cmd = some (ok, ac')) : ac'.freeing = ac.freeing := by
  rw [redisAsyncCommand] at h
  split_ifs at h with hclosing
  · obtain ⟨rfl, rfl⟩ := h
    rfl
  · cases hkind : asyncKind cmd with
    | none =>
      rw [hkind] at h
      cases h
    | some kind =>
      have hsame := registerCallback_sameBut ac cb kind
      simp only [hkind] at h
      generalize registerCallback ac cb kind = out at h hsame
      obtain ⟨_ | _, ac₁⟩ := out
      · obtain ⟨rfl, rfl⟩ := h
        exact hsame.freeing
      · obtain ⟨rfl, rfl⟩ := h
        exact hsame.freeing

/-- A call by the program extends the context or ends it. -/
theorem Alive.run_cases {call : AsyncCall} (h : Alive ac k) (hrun : call.run ac = some ac') :
    (∃ es, Extends es ac ac' ∧ calls es = [] ∧ ac'.freeing = false) ∨ Ended ac' k := by
  cases call with
  | command cb cmd =>
    obtain ⟨⟨ok, ac₁⟩, hcommand, rfl⟩ := Option.map_eq_some_iff.1 hrun
    exact .inl ⟨_, redisAsyncCommand_extends hcommand, by cases ok <;> rfl,
      (redisAsyncCommand_freeing hcommand).trans h.freeing⟩
  | disconnect =>
    rw [AsyncCall.run, redisAsyncDisconnect] at hrun
    have hflag : Extends [] ac { ac with disconnecting := true } :=
      extends_flags ac ac.onConnect ac.onDisconnect (fun _ => rfl) id id
    split_ifs at hrun
    · exact .inr ((h.extends hflag h.freeing).disconnectNow (.inl (.inl rfl)) hrun)
    · obtain rfl := Option.some.inj hrun
      exact .inl ⟨[], hflag, rfl, h.freeing⟩
  | free =>
    obtain ⟨es, ac₁, hfree, hfreed, hlog, haccepted, -⟩ := h.free
    obtain rfl := Option.some.inj (hfree.symm.trans hrun)
    refine .inr ⟨hfreed, ?_⟩
    rw [hlog, accepted_append, haccepted, List.append_nil, ← h.texts]
    exact List.prefix_append ..
  | setConnectCallback =>
    obtain rfl := Option.some.inj hrun
    refine .inl ⟨[], redisAsyncSetConnectCallback_extends ac, rfl, ?_⟩
    rw [redisAsyncSetConnectCallback]
    split_ifs <;> exact h.freeing
  | setDisconnectCallback =>
    obtain rfl := Option.some.inj hrun
    exact .inl ⟨[], extends_flags ac _ true id id id, rfl, h.freeing⟩

theorem Alive.run {call : AsyncCall} (h : Alive ac k) (hrun : call.run ac = some ac') :
    Alive ac' k ∨ Ended ac' k :=
  (h.run_cases hrun).imp_left fun ⟨_, hes, _, hfreeing⟩ => h.extends hes hfreeing

theorem Alive.run_extends {call : AsyncCall} (h : Alive ac k) (hrun : call.run ac = some ac')
    (hfreed : ac'.freed = false) :
    ∃ es, Extends es ac ac' ∧ calls es = [] ∧ ac'.freeing = false := by
  refine (h.run_cases hrun).resolve_right fun hended => ?_
  rw [hended.freed] at hfreed
  cases hfreed

theorem Alive.runOnConnect {ok : Bool} (h : Alive ac k) (hrun : runOnConnect ac ok = some ac') :
    ∃ es, Extends es ac ac' ∧ ac'.freeing = false := by
  rw [YcsbC.runOnConnect] at hrun
  split_ifs at hrun
  · have hconnected : Extends [.connected ok] ac
        { ac.record (.connected ok) with script := ac.script.tail } := extends_connected ac ok
    have hbegin := h.extends hconnected h.freeing
    generalize ac.script.headD [] = cs at hrun
    generalize { ac.record (.connected ok) with script := ac.script.tail } = ac₀ at *
    obtain ⟨es, hes, hfreeing⟩ : ∃ es, Extends es ac₀ ac' ∧ ac'.freeing = false := by
      clear hconnected
      induction cs generalizing ac₀ with
      | nil =>
        obtain rfl := Option.some.inj hrun
        exact ⟨[], .refl _, hbegin.freeing⟩
      | cons call cs ih =>
        rw [List.foldlM_cons] at hrun
        obtain ⟨ac₁, hcall, hrest⟩ := Option.bind_eq_some_iff.1 hrun
        obtain ⟨hcall, hfreed⟩ := Option.filter_eq_some_iff.1 hcall
        obtain ⟨es, hes, -, hfreeing⟩ := hbegin.run_extends hcall (by simpa using hfreed)
        obtain ⟨es', hes', hfreeing'⟩ := ih ac₁ (hbegin.extends hes hfreeing) hrest
        exact ⟨es ++ es', hes.trans hes', hfreeing'⟩
    exact ⟨_, hconnected.trans hes, hfreeing⟩
  · obtain rfl := Option.some.inj hrun
    exact ⟨[], .refl ac, h.freeing⟩

/-! ### Buffers -/

/-- What `redisBufferWrite` takes from the output buffer is sent. -/
theorem redisBufferWrite_keeps {c c' : ByteContext} {ok : Bool}
    (h : redisBufferWrite c k = some (ok, c', k')) :
    k'.sent ++ c'.obuf = k.sent ++ c.obuf ∧ k'.received = k.received ∧ c'.reader = c.reader ∧
      (ok = false → k'.sent = k.sent) ∧ (c'.err = none ↔ ok = true) := by
  rw [redisBufferWrite] at h
  split_ifs at h with herr hnil
  · obtain ⟨rfl, rfl, rfl⟩ := h
    refine ⟨rfl, rfl, rfl, fun _ => rfl, iff_of_false ?_ Bool.false_ne_true⟩
    rintro hnone
    rw [hnone] at herr
    cases herr
  · obtain ⟨rfl, rfl, rfl⟩ := h
    exact ⟨rfl, rfl, rfl, fun _ => rfl, iff_of_true (by simpa using herr) rfl⟩
  · split at h
    · cases h
    · obtain ⟨rfl, rfl, rfl⟩ := h
      refine ⟨?_, rfl, rfl, nofun, iff_of_true (by simpa using herr) rfl⟩
      rw [List.append_assoc, List.take_append_drop]
    · split_ifs at h
      · obtain ⟨rfl, rfl, rfl⟩ := h
        exact ⟨rfl, rfl, rfl, fun _ => rfl, iff_of_true (by simpa using herr) rfl⟩
      · obtain ⟨rfl, rfl, rfl⟩ := h
        exact ⟨rfl, rfl, rfl, fun _ => rfl, iff_of_false nofun Bool.false_ne_true⟩

theorem feed_nil (r : RedisReader) : r.feed [] = r := by
  rw [RedisReader.feed, List.append_nil]
  split_ifs <;> rfl

theorem redisBufferRead_feeds {respond : Str → Str} {c c' : ByteContext} {ok : Bool}
    (h : redisBufferRead respond c k = some (ok, c', k')) :
    k'.sent = k.sent ∧ c'.obuf = c.obuf ∧ (c'.err = none ↔ ok = true) ∧
      (ok = true → k'.received = k.received + (readBytes respond k k').length ∧
        (readBytes respond k k').length ≤ 1024 * 16 ∧
        c'.reader = c.reader.feed (readBytes respond k k')) := by
  have hnothing : ∀ reads, readBytes respond k { k with reads := reads } = [] := fun reads => by
    rw [readBytes, Nat.sub_self, List.take_zero]
  rw [redisBufferRead] at h
  split_ifs at h with herr
  · obtain ⟨rfl, rfl, rfl⟩ := h
    refine ⟨rfl, rfl, iff_of_false ?_ Bool.false_ne_true, nofun⟩
    rintro hnone
    rw [hnone] at herr
    cases herr
  · have hnone : c.err = none := by simpa using herr
    split at h
    · cases h
    · obtain ⟨rfl, rfl, rfl⟩ := h
      exact ⟨rfl, rfl, iff_of_false nofun Bool.false_ne_true, nofun⟩
    · dsimp only at h
      split_ifs at h
      split at h
      · obtain ⟨rfl, rfl, rfl⟩ := h
        exact ⟨rfl, rfl, iff_of_false nofun Bool.false_ne_true, nofun⟩
      · obtain ⟨rfl, rfl, rfl⟩ := h
        refine ⟨rfl, rfl, iff_of_true hnone rfl, fun _ => ?_⟩
        rw [readBytes, Nat.add_sub_cancel_left, List.length_take, ← List.take_eq_take_min,
          List.length_take]
        exact ⟨rfl, (min_le_left _ _).trans (min_le_right _ _), rfl⟩
    · split_ifs at h
      · obtain ⟨rfl, rfl, rfl⟩ := h
        refine ⟨rfl, rfl, iff_of_true hnone rfl, fun _ => ?_⟩
        rw [hnothing, feed_nil]
        exact ⟨rfl, Nat.zero_le _, rfl⟩
      · obtain ⟨rfl, rfl, rfl⟩ := h
        exact ⟨rfl, rfl, iff_of_false nofun Bool.false_ne_true, nofun⟩

/-! ### Replies -/

theorem Alive.sameBut (h : Alive ac k) (hsame : ac.SameBut ac') (hwf : ac'.WF) : Alive ac' k where
  freed := hsame.freed.trans h.freed
  inCallback := hsame.inCallback.trans h.inCallback
  freeing := hsame.freeing.trans h.freeing
  wf := hwf
  texts := by rw [hsame.c, hsame.log, h.texts]
  writing hne := hsame.writing.trans (h.writing (hsame.c ▸ hne))
  reading hne := hsame.reading.trans (h.reading hne)

theorem Alive.of_sent_eq (h : Alive ac k) (hsent : k'.sent = k.sent) : Alive ac k' :=
  ⟨h.freed, h.inCallback, h.freeing, h.wf, hsent ▸ h.texts, h.writing, hsent ▸ h.reading⟩

/-- The fields of the connection are changed, but what is to be written is not. -/
theorem Alive.of_obuf_eq (h : Alive ac k) {c : ByteContext} (hobuf : c.obuf = ac.c.obuf) :
    Alive { ac with c := c } k :=
  ⟨h.freed, h.inCallback, h.freeing, ⟨h.wf.channels, h.wf.patterns⟩,
    by rw [← h.texts, ← hobuf], fun hne => h.writing (hobuf ▸ hne), h.reading⟩

/-- Finding the callback of a reply changes the callbacks only. -/
theorem redisGetSubscribeCallback_sameBut {cb cb' : RedisCallback} {reply : RedisReply}
    (h : redisGetSubscribeCallback ac cb reply = some (cb', ac')) :
    ac.SameBut ac' ∧ (ac.WF → ac'.WF) := by
  rw [redisGetSubscribeCallback.eq_def] at h
  have hrefl : ac.SameBut ac := by constructor <;> rfl
  split at h
  · rename_i stype sname rest
    dsimp only at h
    generalize decide (((cStr stype).headD nul).toLower = 'p') = pvariant at h
    generalize (if pvariant = true then (cStr stype).tail else cStr stype) = kind at h
    split at h
    · obtain ⟨rfl, rfl⟩ := h
      exact ⟨hrefl, id⟩
    · split_ifs at h
      · have hsame := sameBut_setSubs ac pvariant
          (dictDelete callbackHash (ac.subs pvariant) sname).2
        have hwf := fun hwf : ac.WF =>
          hwf.setSubs pvariant ((hwf.subs pvariant).wf_dictDelete sname)
        split at h
        · obtain ⟨rfl, rfl⟩ := h
          split_ifs
          · exact ⟨hsame.trans (by constructor <;> rfl), fun h =>
              ⟨(hwf h).channels, (hwf h).patterns⟩⟩
          · exact ⟨hsame, hwf⟩
        · cases h
      · obtain ⟨rfl, rfl⟩ := h
        exact ⟨hrefl, id⟩
  · cases h
  · cases h
  · split at h
    · obtain ⟨rfl, rfl⟩ := h
      exact ⟨hrefl, id⟩
    · obtain ⟨rfl, rfl⟩ := h
      exact ⟨by constructor <;> rfl, fun hwf => ⟨hwf.channels, hwf.patterns⟩⟩

/-- What finding the callback of a reply does; if nobody waits for the reply there is an error. -/
theorem Alive.callbackOf {cb : RedisCallback} {reply : RedisReply} {o : Option RedisCallback}
    (h : Alive ac k) (hof : callbackOf ac cb reply = some (o, ac')) :
    Alive ac' k ∧ (o = none → ac'.c.err ≠ none) ∧ (o ≠ none → ac'.c = ac.c) := by
  rw [callbackOf.eq_def] at hof
  split at hof
  · obtain ⟨rfl, rfl⟩ := hof
    exact ⟨h.sameBut (by constructor <;> rfl) ⟨h.wf.channels, h.wf.patterns⟩, nofun, fun _ => rfl⟩
  · split at hof
    · obtain ⟨rfl, rfl⟩ := hof
      exact ⟨h.of_obuf_eq rfl, fun _ => nofun, fun hne => absurd rfl hne⟩
    · split_ifs at hof with hsubscribed
      · obtain ⟨⟨cb', ac₁⟩, hsub, heq⟩ := Option.map_eq_some_iff.1 hof
        obtain ⟨rfl, rfl⟩ := heq
        obtain ⟨hsame, hwf⟩ := redisGetSubscribeCallback_sameBut hsub
        exact ⟨h.sameBut hsame (hwf h.wf), nofun, fun _ => hsame.c⟩
      · obtain ⟨rfl, rfl⟩ := hof
        exact ⟨h, nofun, fun _ => rfl⟩

theorem redisGetReplyFromReader_keeps {c c' : ByteContext} {ok : Bool} {o : Option RedisReply}
    (h : redisGetReplyFromReader c = (ok, o, c')) :
    c'.obuf = c.obuf ∧ c'.reader = c.reader.getReply.2 ∧ (ok = false → c'.err ≠ none) ∧
      (ok = true → o = c.reader.getReply.1 ∧ c'.err = c.err) := by
  rw [redisGetReplyFromReader] at h
  split at h
  · obtain ⟨rfl, rfl, rfl⟩ := h
    exact ⟨rfl, rfl, fun _ => nofun, nofun⟩
  · obtain ⟨rfl, rfl, rfl⟩ := h
    exact ⟨rfl, rfl, nofun, fun _ => ⟨rfl, rfl⟩⟩

theorem Alive.callback {cb : RedisCallback} {d : Option RedisReply} (h : Alive ac k)
    (hrun : redisRunCallback ac cb d = some ac')
    (hfreeing : ¬ (cb.fn.isSome && ac'.freeing) = true) : Alive ac' k := by
  obtain ⟨es, hes, -⟩ := redisRunCallback_extends h.inCallback hrun
  refine h.extends hes ?_
  cases hfn : cb.fn with
  | none =>
    rw [redisRunCallback, hfn] at hrun
    obtain rfl := Option.some.inj hrun
    exact h.freeing
  | some f => simpa [hfn] using hfreeing

/-- **The loop over the replies.** -/
theorem Alive.processLoop {n : ℕ} {cb : RedisCallback} (h : Alive ac k)
    (hrun : processLoop n cb ac = some ac') : Alive ac' k ∨ Ended ac' k := by
  induction n generalizing cb ac with
  | zero => cases hrun
  | succ n ih =>
    rw [YcsbC.processLoop] at hrun
    obtain ⟨ok, o, c, hreply⟩ : ∃ ok o c, redisGetReplyFromReader ac.c = (ok, o, c) :=
      ⟨_, _, _, rfl⟩
    obtain ⟨hobuf, -, herr, -⟩ := redisGetReplyFromReader_keeps hreply
    have hnext := h.of_obuf_eq hobuf
    rw [hreply] at hrun
    match ok, o with
    | false, _ => exact .inr (hnext.disconnectNow (.inr (herr rfl)) hrun)
    | true, none =>
      dsimp only at hrun
      split_ifs at hrun with hend
      · rw [Bool.and_eq_true, Bool.and_eq_true] at hend
        have hdisconnecting : ac.disconnecting = true := hend.1.1
        exact .inr (hnext.disconnectNow (.inl (.inl hdisconnecting)) hrun)
      · obtain rfl := Option.some.inj hrun
        exact .inl (hnext.sameBut (by constructor <;> rfl) ⟨h.wf.channels, h.wf.patterns⟩)
      · obtain rfl := Option.some.inj hrun
        exact .inl hnext
    | true, some reply =>
      dsimp only at hrun
      split at hrun
      · cases hrun
      · rename_i ac₁ hof
        obtain ⟨hof, herr', -⟩ := hnext.callbackOf hof
        exact .inr (hof.disconnectNow (.inr (herr' rfl)) hrun)
      · rename_i cb₁ ac₁ hof
        obtain ⟨hof, -, -⟩ := hnext.callbackOf hof
        obtain ⟨ac₂, hcallback, hrest⟩ := Option.bind_eq_some_iff.1 hrun
        obtain ⟨es, hes, -⟩ := redisRunCallback_extends hof.inCallback hcallback
        split_ifs at hrest with hfreeing
        · rw [Bool.and_eq_true] at hfreeing
          exact .inr (hof.extends_free hes hfreeing.2 hrest)
        · exact ih (hof.callback hcallback hfreeing) hrest

/-! ### Events -/

theorem Alive.handleEvent {sock : Option Errno} {ok : Bool} (h : Alive ac k)
    (hrun : handleEvent ac sock = some (ok, ac')) :
    if ok then Alive ac' k else Alive ac' k ∨ Ended ac' k := by
  rw [YcsbC.handleEvent] at hrun
  split_ifs at hrun
  · obtain ⟨rfl, rfl⟩ := hrun
    exact h
  · obtain ⟨⟨b, ac₁⟩, hconnect, heq⟩ := Option.map_eq_some_iff.1 hrun
    obtain ⟨rfl, rfl⟩ := heq
    cases sock with
    | none =>
      obtain ⟨ac₂, hon, heq⟩ := Option.map_eq_some_iff.1 hconnect
      obtain ⟨rfl, rfl⟩ := heq
      have hconnected : Alive { ac with connected := true } k :=
        ⟨h.freed, h.inCallback, h.freeing, ⟨h.wf.channels, h.wf.patterns⟩, h.texts, h.writing,
          h.reading⟩
      obtain ⟨es, hes, hfreeing⟩ := hconnected.runOnConnect hon
      have halive := hconnected.extends hes hfreeing
      split_ifs
      · exact halive
      · exact .inl halive
    | some e =>
      have herr : Alive { ac with c := { ac.c with err := some (.io e) } } k := h.of_obuf_eq rfl
      rw [redisAsyncHandleConnect] at hconnect
      split_ifs at hconnect with hprogress
      · obtain ⟨rfl, rfl⟩ := hconnect
        split_ifs
        · exact herr
        · exact .inl herr
      · obtain ⟨ac₂, hend, heq⟩ := Option.map_eq_some_iff.1 hconnect
        obtain ⟨rfl, rfl⟩ := heq
        obtain ⟨ac₃, hon, hdisconnect⟩ := Option.bind_eq_some_iff.1 hend
        obtain ⟨es, hes, hfreeing⟩ := herr.runOnConnect hon
        refine .inr ((herr.extends hes hfreeing).disconnectNow (.inr ?_) hdisconnect)
        rw [hes.c]
        exact nofun

theorem Alive.handleWrite {sock : Option Errno} (h : Alive ac k)
    (hrun : redisAsyncHandleWrite ac k sock = some (ac', k')) : Alive ac' k' ∨ Ended ac' k' := by
  rw [redisAsyncHandleWrite] at hrun
  split at hrun
  · cases hrun
  · rename_i ac₁ hevent
    obtain ⟨rfl, rfl⟩ := hrun
    exact h.handleEvent hevent
  · rename_i ac₁ hevent
    have halive : Alive ac₁ k := h.handleEvent hevent
    split at hrun
    · cases hrun
    · rename_i c k₁ hwrite
      obtain ⟨hobuf, -, -, hsent, herr⟩ := redisBufferWrite_keeps hwrite
      rw [hsent rfl] at hobuf
      obtain ⟨ac₂, hdisconnect, heq⟩ := Option.map_eq_some_iff.1 hrun
      obtain ⟨rfl, rfl⟩ := heq
      have hnext := (halive.of_obuf_eq (List.append_cancel_left hobuf)).of_sent_eq (hsent rfl)
      exact .inr (hnext.disconnectNow (.inr fun hnone => Bool.false_ne_true (herr.1 hnone))
        hdisconnect)
    · rename_i c k₁ hwrite
      obtain ⟨hobuf, -⟩ := redisBufferWrite_keeps hwrite
      obtain ⟨rfl, rfl⟩ := hrun
      refine .inl ⟨halive.freed, halive.inCallback, halive.freeing,
        ⟨halive.wf.channels, halive.wf.patterns⟩, hobuf.trans halive.texts, ?_, fun _ => rfl⟩
      exact fun hne => by simpa using hne

theorem Alive.received {respond : Str → Str} {c : ByteContext} (h : Alive ac k)
    (hread : redisBufferRead respond ac.c k = some (true, c, k')) :
    Alive { ac.record (.received (readBytes respond k k')) with c := c, reading := true } k' := by
  obtain ⟨hsent, hobuf, -⟩ := redisBufferRead_feeds hread
  refine ⟨h.freed, h.inCallback, h.freeing, ⟨h.wf.channels, h.wf.patterns⟩, ?_,
    fun hne => h.writing (hobuf ▸ hne), fun _ => rfl⟩
  rw [hsent]
  simpa [record, accepted, hobuf] using h.texts

theorem Alive.handleRead {respond : Str → Str} {sock : Option Errno} (h : Alive ac k)
    (hrun : redisAsyncHandleRead respond ac k sock = some (ac', k')) :
    Alive ac' k' ∨ Ended ac' k' := by
  rw [redisAsyncHandleRead] at hrun
  split at hrun
  · cases hrun
  · rename_i ac₁ hevent
    obtain ⟨rfl, rfl⟩ := hrun
    exact h.handleEvent hevent
  · rename_i ac₁ hevent
    have halive : Alive ac₁ k := h.handleEvent hevent
    split at hrun
    · cases hrun
    · rename_i c k₁ hread
      obtain ⟨hsent, hobuf, herr, -⟩ := redisBufferRead_feeds hread
      obtain ⟨ac₂, hdisconnect, heq⟩ := Option.map_eq_some_iff.1 hrun
      obtain ⟨rfl, rfl⟩ := heq
      exact .inr (((halive.of_obuf_eq hobuf).of_sent_eq hsent).disconnectNow
        (.inr fun hnone => Bool.false_ne_true (herr.1 hnone)) hdisconnect)
    · rename_i c k₁ hread
      obtain ⟨ac₂, hprocess, heq⟩ := Option.map_eq_some_iff.1 hrun
      obtain ⟨rfl, rfl⟩ := heq
      exact (halive.received hread).processLoop hprocess

/-! ### Runs -/

theorem Alive.step {respond : Str → Str} {input : AsyncInput} (h : Alive ac k)
    (hstep : asyncStep respond ac k input = some (ac', k')) : Alive ac' k' ∨ Ended ac' k' := by
  rw [asyncStep.eq_def, if_neg (by rw [h.freed]; exact Bool.false_ne_true)] at hstep
  cases input with
  | call call =>
    obtain ⟨ac₁, hcall, heq⟩ := Option.map_eq_some_iff.1 hstep
    obtain ⟨rfl, rfl⟩ := heq
    exact h.run hcall
  | read sock => exact h.handleRead hstep
  | write sock => exact h.handleWrite hstep

theorem asyncRun_of_freed {respond : Str → Str} {inputs : List AsyncInput} (h : ac.freed = true)
    (hrun : asyncRun respond ac k inputs = some (ac', k')) : ac' = ac ∧ k' = k := by
  cases inputs with
  | nil =>
    obtain ⟨rfl, rfl⟩ := hrun
    exact ⟨rfl, rfl⟩
  | cons input inputs =>
    have hstep : asyncStep respond ac k input = none := by rw [asyncStep.eq_def, if_pos h]
    rw [asyncRun, List.foldlM_cons, hstep] at hrun
    cases hrun

theorem Alive.asyncRun {respond : Str → Str} {inputs : List AsyncInput} (h : Alive ac k)
    (hrun : asyncRun respond ac k inputs = some (ac', k')) : Alive ac' k' ∨ Ended ac' k' := by
  induction inputs generalizing ac k with
  | nil =>
    obtain ⟨rfl, rfl⟩ := hrun
    exact .inl h
  | cons input inputs ih =>
    rw [YcsbC.asyncRun, List.foldlM_cons] at hrun
    obtain ⟨⟨ac₁, k₁⟩, hstep, hrest⟩ := Option.bind_eq_some_iff.1 hrun
    rcases h.step hstep with halive | hended
    · exact ih halive hrest
    · obtain ⟨rfl, rfl⟩ := asyncRun_of_freed hended.freed hrest
      exact .inr hended

theorem alive_redisAsyncConnect (script : List (List AsyncCall))
    (writes reads : List (Except Errno ℕ)) :
    Alive (redisAsyncConnect script) ⟨[], 0, writes, reads⟩ where
  freed := rfl
  inCallback := rfl
  freeing := rfl
  wf := ⟨Dict.wf_dictCreate, Dict.wf_dictCreate⟩
  texts := rfl
  writing hne := absurd rfl hne
  reading hne := absurd rfl hne

section Results

variable {respond : Str → Str} {script : List (List AsyncCall)}
  {writes reads : List (Except Errno ℕ)}
  {inputs : List AsyncInput}

/-- **What is written.** In any run, whatever the callbacks do, the bytes that have been written are
those of the accepted commands, in their order. Until the context is freed the others are in the
output buffer, a write is scheduled as long as there are some, and a read as soon as anything has
been written. -/
theorem asyncRun_writes
    (h : asyncRun respond (redisAsyncConnect script) ⟨[], 0, writes, reads⟩ inputs = some (ac, k)) :
    k.sent <+: texts (accepted ac.log) ∧
      (ac.freed = false → k.sent ++ ac.c.obuf = texts (accepted ac.log) ∧
        (ac.c.obuf ≠ [] → ac.writing = true) ∧ (k.sent ≠ [] → ac.reading = true)) := by
  rcases (alive_redisAsyncConnect script writes reads).asyncRun h with halive | hended
  · exact ⟨⟨_, halive.texts⟩, fun _ => ⟨halive.texts, halive.writing, halive.reading⟩⟩
  · refine ⟨hended.sent, fun hfreed => ?_⟩
    rw [hended.freed] at hfreed
    cases hfreed

/-- Two commands, of which the second is written only in part. -/
theorem asyncRun_writes_ping :
    ∃ ac k, asyncRun (fun _ => []) (redisAsyncConnect [])
        ⟨[], 0, [.ok 10, .error .eagain, .ok 10], []⟩
        [.call (.command ⟨some 1, 7⟩ (commandText ["PING".toList])),
          .call (.command ⟨none, 7⟩ (commandText ["GET".toList, "k".toList])),
          .write none, .write none, .write none] = some (ac, k) ∧
      k.sent <+: texts (accepted ac.log) ∧
      (ac.freed = false → k.sent ++ ac.c.obuf = texts (accepted ac.log) ∧
        (ac.c.obuf ≠ [] → ac.writing = true) ∧ (k.sent ≠ [] → ac.reading = true)) := by
  obtain ⟨⟨ac, k⟩, hrun⟩ := Option.isSome_iff_exists.1 (by decide :
    (asyncRun (fun _ => []) (redisAsyncConnect []) ⟨[], 0, [.ok 10, .error .eagain, .ok 10], []⟩
      [.call (.command ⟨some 1, 7⟩ (commandText ["PING".toList])),
        .call (.command ⟨none, 7⟩ (commandText ["GET".toList, "k".toList])),
        .write none, .write none, .write none]).isSome)
  exact ⟨ac, k, hrun, asyncRun_writes hrun⟩

/-- **The end of a context.** After any run `redisAsyncFree` calls every callback that is still
there once, without a reply, whatever the callbacks do: first those of the commands, in their order,
then those of the commands that were not valid, and those of the subscriptions, of which a channel
or a pattern has one. No command is accepted. -/
theorem asyncRun_free
    (h : asyncRun respond (redisAsyncConnect script) ⟨[], 0, writes, reads⟩ inputs = some (ac, k))
    (hfreed : ac.freed = false) :
    ∃ ac', redisAsyncFree ac = some ac' ∧ ac'.freed = true ∧
      accepted ac'.log = accepted ac.log ∧
      calls ac'.log = calls ac.log ++
        ((ac.replies ++ ac.invalid ++ ac.channels.entries.map Prod.snd ++
          ac.patterns.entries.map Prod.snd).filter fun cb => cb.fn.isSome).map
            (fun cb => (cb, none)) ∧
      (ac.channels.entries.map Prod.fst).Nodup ∧ (ac.patterns.entries.map Prod.fst).Nodup := by
  have halive : Alive ac k := by
    refine ((alive_redisAsyncConnect script writes reads).asyncRun h).resolve_right fun hended => ?_
    rw [hended.freed] at hfreed
    cases hfreed
  obtain ⟨es, ac', hfree, hfreed', hlog, haccepted, -, hcalls⟩ := halive.free
  refine ⟨ac', hfree, hfreed', ?_, ?_, halive.wf.channels.nodup, halive.wf.patterns.nodup⟩
  · rw [hlog, accepted_append, haccepted, List.append_nil]
  · rw [hlog, calls_append, hcalls, dropped_eq]
    rfl

/-- A subscription and a command that is not valid after it. -/
theorem asyncRun_free_subscribe :
    ∃ ac k ac', asyncRun (fun _ => []) (redisAsyncConnect []) ⟨[], 0, [], []⟩
        [.call (.command ⟨some 1, 7⟩ (commandText ["SUBSCRIBE".toList, "a".toList, "b".toList])),
          .call (.command ⟨some 2, 7⟩ (commandText ["PING".toList]))] = some (ac, k) ∧
      redisAsyncFree ac = some ac' ∧
      calls ac'.log = calls ac.log ++
        ((ac.replies ++ ac.invalid ++ ac.channels.entries.map Prod.snd ++
          ac.patterns.entries.map Prod.snd).filter fun cb => cb.fn.isSome).map
            (fun cb => (cb, none)) := by
  obtain ⟨⟨ac, k⟩, hrun, hfreed⟩ := Option.map_eq_some_iff.1 (by decide :
    (asyncRun (fun _ => []) (redisAsyncConnect []) ⟨[], 0, [], []⟩
      [.call (.command ⟨some 1, 7⟩ (commandText ["SUBSCRIBE".toList, "a".toList, "b".toList])),
        .call (.command ⟨some 2, 7⟩ (commandText ["PING".toList]))]).map (fun p => p.1.freed) =
      some false)
  obtain ⟨ac', hfree, -, -, hcalls, -⟩ := asyncRun_free hrun hfreed
  exact ⟨ac, k, ac', hrun, hfree, hcalls⟩

end Results

end YcsbC
