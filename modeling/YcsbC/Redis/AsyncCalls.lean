import YcsbC.Redis.AsyncContext

/-!
# What the callbacks do to their context

A callback makes any calls on its context. They append commands, with their callbacks, and set
flags; once the context is about to be closed no command is accepted.

## Main definitions

* `accepted`, `calls`, `received`: the parts of a log.
* `AsyncContext.WF`: the hash tables are well-formed.
* `Extends`: what calls change.

## Main results

* `redisRunCallback_extends`: what a callback changes.
* `redisRunCallback_closing`: a callback of a context that is about to be closed.
-/

namespace YcsbC

/-! ### Logs -/

/-- The commands that have been accepted. -/
def accepted (log : List AsyncEvent) : List (RedisCallback × Str) :=
  log.filterMap fun
    | .accepted cb cmd => some (cb, cmd)
    | _ => none

/-- The calls of callbacks. -/
def calls (log : List AsyncEvent) : List (RedisCallback × Option RedisReply) :=
  log.filterMap fun
    | .called cb reply => some (cb, reply)
    | _ => none

/-- The pieces that have been read. -/
def received (log : List AsyncEvent) : List Str :=
  log.filterMap fun
    | .received bytes => some bytes
    | _ => none

/-- The text of commands. -/
def texts (cmds : List (RedisCallback × Str)) : Str := (cmds.map Prod.snd).flatten

section Logs

variable (log log' : List AsyncEvent)

@[simp] theorem accepted_append : accepted (log ++ log') = accepted log ++ accepted log' :=
  List.filterMap_append

@[simp] theorem calls_append : calls (log ++ log') = calls log ++ calls log' :=
  List.filterMap_append

@[simp] theorem received_append : received (log ++ log') = received log ++ received log' :=
  List.filterMap_append

@[simp] theorem texts_append (cmds cmds' : List (RedisCallback × Str)) :
    texts (cmds ++ cmds') = texts cmds ++ texts cmds' := by
  rw [texts, List.map_append, List.flatten_append]
  rfl

end Logs

/-- The tables of the callbacks are well-formed. -/
structure AsyncContext.WF (ac : AsyncContext) : Prop where
  channels : ac.channels.WF callbackHash
  patterns : ac.patterns.WF callbackHash

variable {ac ac' ac'' : AsyncContext} {cb : RedisCallback} {cmd : Str}
  {reply : Option RedisReply} {es es' : List AsyncEvent}

namespace AsyncContext

theorem WF.subs (h : ac.WF) (pvariant : Bool) : (ac.subs pvariant).WF callbackHash := by
  cases pvariant
  · exact h.channels
  · exact h.patterns

theorem WF.setSubs (h : ac.WF) (pvariant : Bool) {d : Dict Str RedisCallback}
    (hd : d.WF callbackHash) : (ac.setSubs pvariant d).WF := by
  cases pvariant
  · exact ⟨hd, h.patterns⟩
  · exact ⟨h.channels, hd⟩

/-- The context is about to be closed. -/
def Closing (ac : AsyncContext) : Prop := ac.disconnecting = true ∨ ac.freeing = true

/-- Only the tables of the callbacks, their lists and the flags of the subscriptions differ. -/
structure SameBut (ac ac' : AsyncContext) : Prop where
  c : ac'.c = ac.c
  connected : ac'.connected = ac.connected
  disconnecting : ac'.disconnecting = ac.disconnecting
  freeing : ac'.freeing = ac.freeing
  inCallback : ac'.inCallback = ac.inCallback
  err : ac'.err = ac.err
  onConnect : ac'.onConnect = ac.onConnect
  onDisconnect : ac'.onDisconnect = ac.onDisconnect
  reading : ac'.reading = ac.reading
  writing : ac'.writing = ac.writing
  script : ac'.script = ac.script
  log : ac'.log = ac.log
  freed : ac'.freed = ac.freed

theorem SameBut.trans (h : ac.SameBut ac') (h' : ac'.SameBut ac'') : ac.SameBut ac'' where
  c := h'.c.trans h.c
  connected := h'.connected.trans h.connected
  disconnecting := h'.disconnecting.trans h.disconnecting
  freeing := h'.freeing.trans h.freeing
  inCallback := h'.inCallback.trans h.inCallback
  err := h'.err.trans h.err
  onConnect := h'.onConnect.trans h.onConnect
  onDisconnect := h'.onDisconnect.trans h.onDisconnect
  reading := h'.reading.trans h.reading
  writing := h'.writing.trans h.writing
  script := h'.script.trans h.script
  log := h'.log.trans h.log
  freed := h'.freed.trans h.freed

theorem sameBut_setSubs (ac : AsyncContext) (pvariant : Bool) (d : Dict Str RedisCallback) :
    ac.SameBut (ac.setSubs pvariant d) := by
  cases pvariant <;> constructor <;> rfl

/-- What calls change: commands are accepted, and flags are set. -/
structure Extends (es : List AsyncEvent) (ac ac' : AsyncContext) : Prop where
  log : ac'.log = ac.log ++ es
  quiet : received es = []
  c : ac'.c = { ac.c with obuf := ac.c.obuf ++ texts (accepted es) }
  connected : ac'.connected = ac.connected
  inCallback : ac'.inCallback = ac.inCallback
  err : ac'.err = ac.err
  reading : ac'.reading = ac.reading
  freed : ac'.freed = ac.freed
  disconnecting : ac.disconnecting = true → ac'.disconnecting = true
  freeing : ac.freeing = true → ac'.freeing = true
  writing : ac.writing = true → ac'.writing = true
  wakes : accepted es ≠ [] → ac'.writing = true
  wf : ac.WF → ac'.WF
  closing : ac.Closing → accepted es = [] ∧ ac'.replies = ac.replies ∧ ac'.invalid = ac.invalid ∧
    ac'.channels = ac.channels ∧ ac'.patterns = ac.patterns ∧ ac'.subscribed = ac.subscribed ∧
    ac'.monitoring = ac.monitoring

theorem Extends.refl (ac : AsyncContext) : Extends [] ac ac where
  log := (List.append_nil _).symm
  quiet := rfl
  c := by simp [accepted, texts]
  connected := rfl
  inCallback := rfl
  err := rfl
  reading := rfl
  freed := rfl
  disconnecting := id
  freeing := id
  writing := id
  wakes hne := absurd rfl hne
  wf := id
  closing _ := ⟨rfl, rfl, rfl, rfl, rfl, rfl, rfl⟩

theorem Extends.isClosing (h : Extends es ac ac') (hc : ac.Closing) : ac'.Closing :=
  hc.imp h.disconnecting h.freeing

theorem Extends.trans (h : Extends es ac ac') (h' : Extends es' ac' ac'') :
    Extends (es ++ es') ac ac'' where
  log := by rw [h'.log, h.log, List.append_assoc]
  quiet := by rw [received_append, h.quiet, h'.quiet]; rfl
  c := by
    rw [h'.c, h.c, accepted_append, texts_append]
    simp only [List.append_assoc]
  connected := h'.connected.trans h.connected
  inCallback := h'.inCallback.trans h.inCallback
  err := h'.err.trans h.err
  reading := h'.reading.trans h.reading
  freed := h'.freed.trans h.freed
  disconnecting := h'.disconnecting ∘ h.disconnecting
  freeing := h'.freeing ∘ h.freeing
  writing := h'.writing ∘ h.writing
  wakes hne := by
    rw [accepted_append] at hne
    by_cases hnil : accepted es' = []
    · rw [hnil, List.append_nil] at hne
      exact h'.writing (h.wakes hne)
    · exact h'.wakes hnil
  wf := h'.wf ∘ h.wf
  closing hc := by
    obtain ⟨hes, hreplies, hinvalid, hchannels, hpatterns, hsubscribed, hmonitoring⟩ := h.closing hc
    obtain ⟨hes', hreplies', hinvalid', hchannels', hpatterns', hsubscribed', hmonitoring'⟩ :=
      h'.closing (h.isClosing hc)
    exact ⟨by rw [accepted_append, hes, hes']; rfl, hreplies'.trans hreplies,
      hinvalid'.trans hinvalid, hchannels'.trans hchannels, hpatterns'.trans hpatterns,
      hsubscribed'.trans hsubscribed, hmonitoring'.trans hmonitoring⟩

theorem SameBut.extends (h : ac.SameBut ac') (hopen : ¬ ac.Closing) (hwf : ac.WF → ac'.WF) :
    Extends [] ac ac' where
  log := by rw [h.log, List.append_nil]
  quiet := rfl
  c := by rw [h.c]; simp [accepted, texts]
  connected := h.connected
  inCallback := h.inCallback
  err := h.err
  reading := h.reading
  freed := h.freed
  disconnecting := h.disconnecting.trans
  freeing := h.freeing.trans
  writing := h.writing.trans
  wakes hne := absurd rfl hne
  wf := hwf
  closing hc := absurd hc hopen

/-- The command is appended. -/
theorem extends_append (hopen : ¬ ac.Closing) (cb : RedisCallback) (cmd : Str) :
    Extends [.accepted cb cmd] ac { ac.record (.accepted cb cmd) with
      c := { ac.c with obuf := ac.c.obuf ++ cmd }, writing := true } where
  log := rfl
  quiet := rfl
  c := by simp [accepted, texts]
  connected := rfl
  inCallback := rfl
  err := rfl
  reading := rfl
  freed := rfl
  disconnecting := id
  freeing := id
  writing _ := rfl
  wakes _ := rfl
  wf h := ⟨h.channels, h.patterns⟩
  closing hc := absurd hc hopen

/-- Flags are set. -/
theorem extends_flags (ac : AsyncContext) {disconnecting freeing writing : Bool}
    (onConnect onDisconnect : Bool)
    (hdisconnecting : ac.disconnecting = true → disconnecting = true)
    (hfreeing : ac.freeing = true → freeing = true)
    (hwriting : ac.writing = true → writing = true) :
    Extends [] ac
      { ac with
        disconnecting := disconnecting, freeing := freeing, onConnect := onConnect,
        onDisconnect := onDisconnect, writing := writing } where
  log := (List.append_nil _).symm
  quiet := rfl
  c := by simp [accepted, texts]
  connected := rfl
  inCallback := rfl
  err := rfl
  reading := rfl
  freed := rfl
  disconnecting := hdisconnecting
  freeing := hfreeing
  writing := hwriting
  wakes hne := absurd rfl hne
  wf h := ⟨h.channels, h.patterns⟩
  closing _ := ⟨rfl, rfl, rfl, rfl, rfl, rfl, rfl⟩

/-- The function for the connection is called. -/
theorem extends_connected (ac : AsyncContext) (ok : Bool) {script : List (List AsyncCall)} :
    Extends [.connected ok] ac { ac.record (.connected ok) with script := script } where
  log := rfl
  quiet := rfl
  c := by simp [accepted, texts, record]
  connected := rfl
  inCallback := rfl
  err := rfl
  reading := rfl
  freed := rfl
  disconnecting := id
  freeing := id
  writing := id
  wakes hne := absurd rfl hne
  wf h := ⟨h.channels, h.patterns⟩
  closing _ := ⟨rfl, rfl, rfl, rfl, rfl, rfl, rfl⟩

/-- The calls of a callback. -/
theorem Extends.callback {script : List (List AsyncCall)} (hin : ac.inCallback = false)
    (h : Extends es
      { ac.record (.called cb reply) with inCallback := true, script := script } ac') :
    Extends (.called cb reply :: es) ac { ac' with inCallback := false } where
  log := by
    rw [h.log]
    simp [record]
  quiet := h.quiet
  c := h.c
  connected := h.connected
  inCallback := hin.symm
  err := h.err
  reading := h.reading
  freed := h.freed
  disconnecting := h.disconnecting
  freeing := h.freeing
  writing := h.writing
  wakes := h.wakes
  wf hwf :=
    have hwf' := h.wf ⟨hwf.channels, hwf.patterns⟩
    ⟨hwf'.channels, hwf'.patterns⟩
  closing := h.closing

end AsyncContext

open AsyncContext

/-! ### Calls -/

/-- A command leaves all but the callbacks and their flags as it is. -/
theorem registerCallback_sameBut (ac : AsyncContext) (cb : RedisCallback) (kind : AsyncKind) :
    ac.SameBut (registerCallback ac cb kind).2 := by
  cases kind with
  | subscribe pvariant names =>
    have hfold : ∀ ac' : AsyncContext, ac.SameBut ac' → ac.SameBut (names.foldl (fun ac name =>
        ac.setSubs pvariant (dictReplace callbackHash (ac.subs pvariant) name cb).2) ac') := by
      induction names with
      | nil => exact fun _ h => h
      | cons name names ih => exact fun ac' h => ih _ (h.trans (sameBut_setSubs ac' pvariant _))
    exact hfold _ (by constructor <;> rfl)
  | unsubscribe => constructor <;> rfl
  | monitor => constructor <;> rfl
  | regular =>
    rw [registerCallback]
    split_ifs <;> constructor <;> rfl

theorem registerCallback_wf (h : ac.WF) (cb : RedisCallback) (kind : AsyncKind) :
    (registerCallback ac cb kind).2.WF := by
  cases kind with
  | subscribe pvariant names =>
    have hfold : ∀ ac : AsyncContext, ac.WF → (names.foldl (fun ac name =>
        ac.setSubs pvariant (dictReplace callbackHash (ac.subs pvariant) name cb).2) ac).WF := by
      induction names with
      | nil => exact fun _ h => h
      | cons name names ih => exact fun ac h => ih _ (h.setSubs pvariant 
          ((h.subs pvariant).wf_dictReplace ..))
    exact hfold _ ⟨h.channels, h.patterns⟩
  | unsubscribe => exact h
  | monitor => exact ⟨h.channels, h.patterns⟩
  | regular =>
    rw [registerCallback]
    split_ifs <;> exact ⟨h.channels, h.patterns⟩

/-- `__redisAsyncCommand` accepts a command or leaves the context as it is. -/
theorem redisAsyncCommand_extends {ok : Bool}
    (h : redisAsyncCommand ac cb cmd = some (ok, ac')) :
    Extends (if ok then [.accepted cb cmd] else []) ac ac' := by
  rw [redisAsyncCommand] at h
  split_ifs at h with hclosing
  · obtain ⟨rfl, rfl⟩ := h
    exact .refl ac
  · have hopen : ¬ ac.Closing := by simpa [Closing] using hclosing
    cases hkind : asyncKind cmd with
    | none =>
      rw [hkind] at h
      cases h
    | some kind =>
      have hsame := registerCallback_sameBut ac cb kind
      have hwf := fun hwf : ac.WF => registerCallback_wf hwf cb kind
      simp only [hkind] at h
      generalize registerCallback ac cb kind = out at h hsame hwf
      obtain ⟨ok', ac₁⟩ := out
      have hextends := hsame.extends hopen hwf
      have hopen' : ¬ ac₁.Closing := by
        rwa [Closing, hsame.disconnecting, hsame.freeing]
      cases ok' with
      | false =>
        obtain ⟨rfl, rfl⟩ := h
        exact hextends
      | true =>
        obtain ⟨rfl, rfl⟩ := h
        exact hextends.trans (extends_append hopen' cb cmd)

theorem redisAsyncSetConnectCallback_extends (ac : AsyncContext) :
    Extends [] ac (redisAsyncSetConnectCallback ac) := by
  rw [redisAsyncSetConnectCallback]
  split_ifs
  · exact .refl ac
  · exact extends_flags ac true _ id id fun _ => rfl

/-- A call within a callback. -/
theorem callWithin_extends {call : AsyncCall} (h : callWithin ac call = some ac') :
    ∃ es, Extends es ac ac' ∧ calls es = [] := by
  cases call with
  | command cb cmd =>
    obtain ⟨⟨ok, ac₁⟩, hcommand, rfl⟩ := Option.map_eq_some_iff.1 h
    exact ⟨_, redisAsyncCommand_extends hcommand, by cases ok <;> rfl⟩
  | disconnect =>
    obtain rfl := Option.some.inj h
    exact ⟨[], extends_flags ac _ _ (fun _ => rfl) id id, rfl⟩
  | free =>
    obtain rfl := Option.some.inj h
    exact ⟨[], extends_flags ac _ _ id (fun _ => rfl) id, rfl⟩
  | setConnectCallback =>
    obtain rfl := Option.some.inj h
    exact ⟨[], redisAsyncSetConnectCallback_extends ac, rfl⟩
  | setDisconnectCallback =>
    obtain rfl := Option.some.inj h
    exact ⟨[], extends_flags ac _ true id id id, rfl⟩

theorem foldlM_callWithin_extends {cs : List AsyncCall}
    (h : cs.foldlM callWithin ac = some ac') : ∃ es, Extends es ac ac' ∧ calls es = [] := by
  induction cs generalizing ac with
  | nil =>
    obtain rfl := Option.some.inj h
    exact ⟨[], .refl ac, rfl⟩
  | cons call cs ih =>
    rw [List.foldlM_cons] at h
    obtain ⟨ac₁, hcall, hrest⟩ := Option.bind_eq_some_iff.1 h
    obtain ⟨es, hes, hcalls⟩ := callWithin_extends hcall
    obtain ⟨es', hes', hcalls'⟩ := ih hrest
    exact ⟨es ++ es', hes.trans hes', by rw [calls_append, hcalls, hcalls']; rfl⟩

/-- The calls of a context that is about to be closed are refused, and none fails. -/
theorem foldlM_callWithin_closing (hc : ac.Closing) (cs : List AsyncCall) :
    ∃ ac', cs.foldlM callWithin ac = some ac' := by
  induction cs generalizing ac with
  | nil => exact ⟨ac, rfl⟩
  | cons call cs ih =>
    obtain ⟨ac₁, hcall⟩ : ∃ ac₁, callWithin ac call = some ac₁ := by
      cases call with
      | command cb cmd =>
        have hrefused : redisAsyncCommand ac cb cmd = some (false, ac) :=
          if_pos (by simpa [Closing] using hc)
        exact ⟨ac, by rw [callWithin, hrefused]; rfl⟩
      | disconnect => exact ⟨_, rfl⟩
      | free => exact ⟨_, rfl⟩
      | setConnectCallback => exact ⟨_, rfl⟩
      | setDisconnectCallback => exact ⟨_, rfl⟩
    obtain ⟨es, hes, -⟩ := callWithin_extends hcall
    obtain ⟨ac', hrest⟩ := ih (hes.isClosing hc)
    exact ⟨ac', by rw [List.foldlM_cons, hcall]; exact hrest⟩

/-! ### Callbacks -/

/-- The call of a callback, unless it is `NULL`. -/
def called (cb : RedisCallback) (reply : Option RedisReply) :
    List (RedisCallback × Option RedisReply) :=
  if cb.fn.isSome then [(cb, reply)] else []

/-- A callback is called, and makes its calls. -/
theorem redisRunCallback_extends (hin : ac.inCallback = false)
    (h : redisRunCallback ac cb reply = some ac') :
    ∃ es, Extends es ac ac' ∧ calls es = called cb reply := by
  rw [redisRunCallback] at h
  cases hfn : cb.fn with
  | none =>
    rw [hfn] at h
    obtain rfl := Option.some.inj h
    exact ⟨[], .refl ac, by rw [called, hfn]; rfl⟩
  | some f =>
    simp only [hfn] at h
    obtain ⟨ac₁, hcalls, rfl⟩ := Option.map_eq_some_iff.1 h
    obtain ⟨es, hes, hnone⟩ := foldlM_callWithin_extends hcalls
    refine ⟨.called cb reply :: es, ?_, ?_⟩
    · exact hes.callback hin
    · rw [called, hfn]
      exact congrArg (_ :: ·) hnone

/-- A callback of a context that is about to be closed changes nothing but its log and flags. -/
theorem redisRunCallback_closing (hin : ac.inCallback = false) (hc : ac.Closing)
    (cb : RedisCallback) (reply : Option RedisReply) :
    ∃ es ac', redisRunCallback ac cb reply = some ac' ∧ Extends es ac ac' ∧
      calls es = called cb reply := by
  obtain ⟨ac', hrun⟩ : ∃ ac', redisRunCallback ac cb reply = some ac' := by
    rw [redisRunCallback]
    cases cb.fn with
    | none => exact ⟨ac, rfl⟩
    | some f =>
      obtain ⟨ac₁, hcalls⟩ := foldlM_callWithin_closing
        (show Closing { ac.record (.called cb reply) with
          inCallback := true, script := ac.script.tail } from hc) (ac.script.headD [])
      exact ⟨_, congrArg (Option.map _) hcalls⟩
  obtain ⟨es, hes, hcalls⟩ := redisRunCallback_extends hin hrun
  exact ⟨es, ac', hrun, hes, hcalls⟩

end YcsbC
