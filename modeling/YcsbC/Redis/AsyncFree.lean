import YcsbC.Redis.AsyncCalls
import YcsbC.Redis.DictRuns

/-!
# The end of an asynchronous context

`__redisAsyncFree` calls every callback that is still there once, without a reply: those of the
commands, in their order, those of the commands that were not valid, and those of the subscriptions.
The context is about to be closed, so that the callbacks cannot add to their lists.

## Main definitions

* `pendingCallbacks`: the callbacks that are still there.
* `Closes`: what the end of a context changes.

## Main results

* `redisAsyncFreeNow_spec`: what `__redisAsyncFree` does.
* `redisAsyncDisconnectNow_spec`: what `__redisAsyncDisconnect` does after an error.
-/

namespace YcsbC

open AsyncContext

/-- Callbacks are called without a reply. -/
def dropped (cbs : List RedisCallback) : List (RedisCallback × Option RedisReply) :=
  (cbs.map fun cb => called cb none).flatten

@[simp] theorem dropped_nil : dropped [] = [] := rfl

@[simp] theorem dropped_cons (cb : RedisCallback) (cbs : List RedisCallback) :
    dropped (cb :: cbs) = called cb none ++ dropped cbs := rfl

@[simp] theorem dropped_append (cbs cbs' : List RedisCallback) :
    dropped (cbs ++ cbs') = dropped cbs ++ dropped cbs' := by
  rw [dropped, List.map_append, List.flatten_append]
  rfl

/-- A callback that is `NULL` is not called. -/
theorem dropped_eq (cbs : List RedisCallback) :
    dropped cbs = (cbs.filter fun cb => cb.fn.isSome).map fun cb => (cb, none) := by
  induction cbs with
  | nil => rfl
  | cons cb cbs ih =>
    rw [dropped_cons, ih, called, List.filter_cons]
    split_ifs <;> rfl

/-- The callbacks of a context, in the order in which `__redisAsyncFree` calls them. -/
def pendingCallbacks (ac : AsyncContext) : List RedisCallback :=
  ac.replies ++ ac.invalid ++ ac.channels.entries.map Prod.snd ++ ac.patterns.entries.map Prod.snd

variable {ac ac' ac'' : AsyncContext} {es es' : List AsyncEvent}

/-- What the end of a context changes, apart from the callbacks that are still there. -/
structure Closes (es : List AsyncEvent) (ac ac' : AsyncContext) : Prop where
  log : ac'.log = ac.log ++ es
  accepted : accepted es = []
  quiet : received es = []
  c : ac'.c = ac.c
  connected : ac'.connected = ac.connected
  inCallback : ac'.inCallback = ac.inCallback
  err : ac'.err = ac.err
  freed : ac'.freed = ac.freed
  freeing : ac.freeing = true → ac'.freeing = true
  closing : ac'.Closing

theorem Closes.refl (hc : ac.Closing) : Closes [] ac ac where
  log := (List.append_nil _).symm
  accepted := rfl
  quiet := rfl
  c := rfl
  connected := rfl
  inCallback := rfl
  err := rfl
  freed := rfl
  freeing := id
  closing := hc

theorem Closes.trans (h : Closes es ac ac') (h' : Closes es' ac' ac'') :
    Closes (es ++ es') ac ac'' where
  log := by rw [h'.log, h.log, List.append_assoc]
  accepted := by rw [accepted_append, h.accepted, h'.accepted]; rfl
  quiet := by rw [received_append, h.quiet, h'.quiet]; rfl
  c := h'.c.trans h.c
  connected := h'.connected.trans h.connected
  inCallback := h'.inCallback.trans h.inCallback
  err := h'.err.trans h.err
  freed := h'.freed.trans h.freed
  freeing := h'.freeing ∘ h.freeing
  closing := h'.closing

theorem Closes.shifted {replies invalid : List RedisCallback}
    (h : Closes es { ac with replies := replies, invalid := invalid } ac') : Closes es ac ac' :=
  ⟨h.log, h.accepted, h.quiet, h.c, h.connected, h.inCallback, h.err, h.freed, h.freeing, h.closing⟩

theorem AsyncContext.Extends.closes (h : Extends es ac ac') (hc : ac.Closing) :
    Closes es ac ac' where
  log := h.log
  accepted := (h.closing hc).1
  quiet := h.quiet
  c := by
    rw [h.c, (h.closing hc).1]
    simp [texts]
  connected := h.connected
  inCallback := h.inCallback
  err := h.err
  freed := h.freed
  freeing := h.freeing
  closing := h.isClosing hc

/-! ### The loops -/

theorem freeReplies_spec {n : ℕ} (hn : ac.replies.length < n) (hin : ac.inCallback = false)
    (hc : ac.Closing) :
    ∃ es ac', freeReplies n ac = some ac' ∧ Closes es ac ac' ∧ calls es = dropped ac.replies ∧
      ac'.replies = [] ∧ ac'.invalid = ac.invalid ∧ ac'.channels = ac.channels ∧
      ac'.patterns = ac.patterns := by
  induction n generalizing ac with
  | zero => exact absurd hn (Nat.not_lt_zero _)
  | succ n ih =>
    rw [freeReplies]
    cases hreplies : ac.replies with
    | nil => exact ⟨[], ac, rfl, .refl hc, rfl, hreplies, rfl, rfl, rfl⟩
    | cons cb rest =>
      rw [hreplies] at hn
      obtain ⟨es, ac₁, hrun, hes, hcalls⟩ := redisRunCallback_closing
        (show inCallback { ac with replies := rest } = false from hin) hc cb none
      obtain ⟨-, hreplies₁, hinvalid₁, hchannels₁, hpatterns₁, -⟩ := hes.closing hc
      obtain ⟨es', ac', hfree, hcloses, hcalls', hnil, hinvalid, hchannels, hpatterns⟩ :=
        ih (by rw [hreplies₁]; exact Nat.lt_of_succ_lt_succ hn) (hes.inCallback.trans hin)
          (hes.isClosing hc)
      have hfirst : Closes es ac ac₁ := (hes.closes hc).shifted
      refine ⟨es ++ es', ac', by simp only [hrun]; exact hfree, hfirst.trans hcloses, ?_, hnil,
        hinvalid.trans hinvalid₁, hchannels.trans hchannels₁, hpatterns.trans hpatterns₁⟩
      rw [calls_append, hcalls, hcalls', hreplies₁]
      rfl

theorem freeInvalid_spec {n : ℕ} (hn : ac.invalid.length < n) (hin : ac.inCallback = false)
    (hc : ac.Closing) :
    ∃ es ac', freeInvalid n ac = some ac' ∧ Closes es ac ac' ∧ calls es = dropped ac.invalid ∧
      ac'.replies = ac.replies ∧ ac'.channels = ac.channels ∧ ac'.patterns = ac.patterns := by
  induction n generalizing ac with
  | zero => exact absurd hn (Nat.not_lt_zero _)
  | succ n ih =>
    rw [freeInvalid]
    cases hinvalid : ac.invalid with
    | nil => exact ⟨[], ac, rfl, .refl hc, rfl, rfl, rfl, rfl⟩
    | cons cb rest =>
      rw [hinvalid] at hn
      obtain ⟨es, ac₁, hrun, hes, hcalls⟩ := redisRunCallback_closing
        (show inCallback { ac with invalid := rest } = false from hin) hc cb none
      obtain ⟨-, hreplies₁, hinvalid₁, hchannels₁, hpatterns₁, -⟩ := hes.closing hc
      obtain ⟨es', ac', hfree, hcloses, hcalls', hreplies, hchannels, hpatterns⟩ :=
        ih (by rw [hinvalid₁]; exact Nat.lt_of_succ_lt_succ hn) (hes.inCallback.trans hin)
          (hes.isClosing hc)
      have hfirst : Closes es ac ac₁ := (hes.closes hc).shifted
      refine ⟨es ++ es', ac', by simp only [hrun]; exact hfree, hfirst.trans hcloses, ?_,
        hreplies.trans hreplies₁, hchannels.trans hchannels₁, hpatterns.trans hpatterns₁⟩
      rw [calls_append, hcalls, hcalls', hinvalid₁]
      rfl

theorem freeSubs_spec {pvariant : Bool} {n : ℕ} {it : DictIterator Str RedisCallback}
    (hit : it.Ongoing (ac.subs pvariant)) (hn : (it.pending (ac.subs pvariant)).length < n)
    (hin : ac.inCallback = false) (hc : ac.Closing) :
    ∃ es ac', freeSubs pvariant n it ac = some ac' ∧ Closes es ac ac' ∧
      calls es = dropped ((it.pending (ac.subs pvariant)).map Prod.snd) ∧
      ac'.subs (!pvariant) = ac.subs (!pvariant) := by
  induction n generalizing ac it with
  | zero => exact absurd hn (Nat.not_lt_zero _)
  | succ n ih =>
    have hyields := hit.yields
    rw [freeSubs]
    generalize dictNext (ac.subs pvariant) it = out at hyields
    obtain ⟨out, it'⟩ := out
    cases hpending : it.pending (ac.subs pvariant) with
    | nil =>
      rw [hpending] at hyields
      obtain rfl : out = none := hyields
      have hsame := sameBut_setSubs ac pvariant dictCreate
      refine ⟨[], _, rfl, ⟨by rw [hsame.log, List.append_nil], rfl, rfl, hsame.c,
        hsame.connected, hsame.inCallback, hsame.err, hsame.freed,
        hsame.freeing.trans, ?_⟩, rfl, ?_⟩
      · rwa [Closing, hsame.disconnecting, hsame.freeing]
      · cases pvariant <;> rfl
    | cons e rest =>
      rw [hpending] at hyields hn
      obtain ⟨rfl, rfl, hreturned⟩ : out = some e ∧ it'.pending (ac.subs pvariant) = rest ∧
          it'.Returned (ac.subs pvariant) e := hyields
      obtain ⟨es, ac₁, hrun, hes, hcalls⟩ := redisRunCallback_closing hin hc e.2 none
      obtain ⟨-, -, -, hchannels₁, hpatterns₁, -⟩ := hes.closing hc
      have hsubs : ∀ b, ac₁.subs b = ac.subs b := fun b => by
        rw [AsyncContext.subs, AsyncContext.subs, hchannels₁, hpatterns₁]
      obtain ⟨es', ac', hfree, hcloses, hcalls', hother⟩ :=
        ih (by rw [hsubs]; exact hreturned.ongoing : it'.Ongoing _)
          (by rw [hsubs]; exact Nat.lt_of_succ_lt_succ hn) (hes.inCallback.trans hin)
          (hes.isClosing hc)
      refine ⟨es ++ es', ac', by simp only [hrun]; exact hfree, (hes.closes hc).trans hcloses, ?_,
        hother.trans (hsubs _)⟩
      rw [calls_append, hcalls, hcalls', hsubs]
      rfl

/-! ### The whole -/

theorem ongoing_dictGetIterator (d : Dict Str RedisCallback) :
    (dictGetIterator : DictIterator Str RedisCallback).Ongoing d :=
  ⟨le_refl _, List.nil_sublist _, fun _ => rfl, fun hne => absurd rfl hne⟩

/-- The tables are walked over from the beginning. -/
theorem freeSubs_begin {p : Bool} (hwf : (ac.subs p).WF callbackHash) (hin : ac.inCallback = false)
    (hc : ac.Closing) :
    ∃ es ac', freeSubs p ((ac.subs p).used + 1) dictGetIterator ac = some ac' ∧
      Closes es ac ac' ∧ calls es = dropped ((ac.subs p).entries.map Prod.snd) ∧
      ac'.subs (!p) = ac.subs (!p) := by
  have hpending : (dictGetIterator : DictIterator Str RedisCallback).pending (ac.subs p) =
      (ac.subs p).entries := rfl
  rw [← hpending]
  refine freeSubs_spec (ongoing_dictGetIterator _) ?_ hin hc
  rw [hpending, hwf.used]
  exact Nat.lt_succ_self _

/-- **The end of a context.** Every callback that is still there is called once, without a reply,
and no command is accepted. -/
theorem redisAsyncFreeNow_spec (hwf : ac.WF) (hin : ac.inCallback = false) (hc : ac.Closing) :
    ∃ es ac', redisAsyncFreeNow ac = some ac' ∧ ac'.freed = true ∧ ac'.log = ac.log ++ es ∧
      accepted es = [] ∧ received es = [] ∧ calls es = dropped (pendingCallbacks ac) ∧
      ac'.c = ac.c ∧ ac'.err = ac.err ∧ (ac.freeing = true → ac'.freeing = true) := by
  obtain ⟨es₁, ac₁, hfree₁, hcloses₁, hcalls₁, -, hinvalid₁, hchannels₁, hpatterns₁⟩ :=
    freeReplies_spec (Nat.lt_succ_self _) hin hc
  have hin₁ := hcloses₁.inCallback.trans hin
  obtain ⟨es₂, ac₂, hfree₂, hcloses₂, hcalls₂, -, hchannels₂, hpatterns₂⟩ :=
    freeInvalid_spec (Nat.lt_succ_self _) hin₁ hcloses₁.closing
  have hin₂ := hcloses₂.inCallback.trans hin₁
  have hchannels : ac₂.channels = ac.channels := hchannels₂.trans hchannels₁
  have hpatterns : ac₂.patterns = ac.patterns := hpatterns₂.trans hpatterns₁
  have hsubs₂ : (ac₂.subs false).WF callbackHash := by
    rw [show ac₂.subs false = ac.channels from hchannels]
    exact hwf.channels
  obtain ⟨es₃, ac₃, hfree₃, hcloses₃, hcalls₃, hother₃⟩ :=
    freeSubs_begin hsubs₂ hin₂ hcloses₂.closing
  have hpatterns₃ : ac₃.patterns = ac.patterns :=
    (show _ = ac₂.patterns from hother₃).trans hpatterns
  have hsubs₃ : (ac₃.subs true).WF callbackHash := by
    rw [show ac₃.subs true = ac.patterns from hpatterns₃]
    exact hwf.patterns
  have hin₃ := hcloses₃.inCallback.trans hin₂
  obtain ⟨es₄, ac₄, hfree₄, hcloses₄, hcalls₄, -⟩ :=
    freeSubs_begin hsubs₃ hin₃ hcloses₃.closing
  have hcloses := ((hcloses₁.trans hcloses₂).trans hcloses₃).trans hcloses₄
  have hcalls : calls (es₁ ++ es₂ ++ es₃ ++ es₄) = dropped (pendingCallbacks ac) := by
    rw [calls_append, calls_append, calls_append, hcalls₁, hcalls₂, hcalls₃, hcalls₄,
      pendingCallbacks, dropped_append, dropped_append, dropped_append, hinvalid₁, ← hchannels,
      ← hpatterns₃]
    rfl
  have hrun : redisAsyncFreeNow ac = some
      { (if ac₄.onDisconnect && ac₄.connected then
          ac₄.record (.disconnected (ac₄.freeing || ac₄.err.isNone)) else ac₄) with
        reading := false, writing := false, freed := true } := by
    rw [redisAsyncFreeNow, hfree₁]
    simp only [Option.bind_eq_bind, Option.bind_some, hfree₂]
    rw [show freeSubs false (ac₂.channels.used + 1) dictGetIterator ac₂ = some ac₃ from hfree₃]
    simp only [Option.bind_some]
    rw [show freeSubs true (ac₃.patterns.used + 1) dictGetIterator ac₃ = some ac₄ from hfree₄]
    rfl
  split_ifs at hrun
  · refine ⟨es₁ ++ es₂ ++ es₃ ++ es₄ ++ [.disconnected (ac₄.freeing || ac₄.err.isNone)], _, hrun,
      rfl, ?_, ?_, ?_, ?_, hcloses.c, hcloses.err, hcloses.freeing⟩
    · rw [← List.append_assoc, ← hcloses.log]
      rfl
    · rw [accepted_append, hcloses.accepted]
      rfl
    · rw [received_append, hcloses.quiet]
      rfl
    · rw [calls_append, hcalls]
      exact List.append_nil _
  · exact ⟨es₁ ++ es₂ ++ es₃ ++ es₄, _, hrun, rfl, hcloses.log, hcloses.accepted, hcloses.quiet,
      hcalls, hcloses.c, hcloses.err, hcloses.freeing⟩

/-- **A disconnection.** It fails when there is no error but some command has no reply yet. -/
theorem redisAsyncDisconnectNow_spec (hwf : ac.WF) (hin : ac.inCallback = false)
    (hc : ac.Closing ∨ ac.c.err ≠ none) (h : redisAsyncDisconnectNow ac = some ac') :
    ∃ es, ac'.freed = true ∧ ac'.log = ac.log ++ es ∧ accepted es = [] ∧ received es = [] ∧
      calls es = dropped (pendingCallbacks ac) ∧ ac'.c = ac.c ∧ ac'.err = ac.c.err ∧
      (ac.freeing = true → ac'.freeing = true) ∧ (ac.c.err = none → ac.replies = []) := by
  rw [redisAsyncDisconnectNow] at h
  cases herr : ac.c.err with
  | none =>
    simp only [herr, Option.isNone_none, if_true] at h
    split_ifs at h with hreplies
    have hclosing : ({ ac with err := none } : AsyncContext).Closing :=
      hc.resolve_right (not_not_intro herr)
    obtain ⟨es, ac₁, hfree, hfreed, hlog, haccepted, hquiet, hcalls, hc', herr', hfreeing⟩ :=
      redisAsyncFreeNow_spec (show WF { ac with err := none } from ⟨hwf.channels, hwf.patterns⟩)
        hin hclosing
    obtain rfl := Option.some.inj (hfree.symm.trans h)
    exact ⟨es, hfreed, hlog, haccepted, hquiet, hcalls, hc', herr', hfreeing, fun _ => hreplies⟩
  | some e =>
    simp only [herr, Option.isNone_some] at h
    obtain ⟨es, ac₁, hfree, hfreed, hlog, haccepted, hquiet, hcalls, hc', herr', hfreeing⟩ :=
      redisAsyncFreeNow_spec (show WF { ac with err := some e, disconnecting := true } from
        ⟨hwf.channels, hwf.patterns⟩) hin (.inl rfl)
    obtain rfl := Option.some.inj (hfree.symm.trans h)
    exact ⟨es, hfreed, hlog, haccepted, hquiet, hcalls, hc', herr', hfreeing, nofun⟩

/-- A disconnection does not fail after an error, or if no command waits for its reply. -/
theorem redisAsyncDisconnectNow_returns (hwf : ac.WF) (hin : ac.inCallback = false)
    (h : ac.c.err ≠ none ∨ (ac.replies = [] ∧ ac.Closing)) :
    ∃ ac', redisAsyncDisconnectNow ac = some ac' := by
  rw [redisAsyncDisconnectNow]
  cases herr : ac.c.err with
  | none =>
    obtain ⟨hreplies, hclosing⟩ := h.resolve_left (not_not_intro herr)
    simp only [Option.isNone_none, if_true]
    rw [if_pos hreplies]
    obtain ⟨-, ac', hfree, -⟩ :=
      redisAsyncFreeNow_spec (show WF { ac with err := none } from ⟨hwf.channels, hwf.patterns⟩)
        hin hclosing
    exact ⟨ac', hfree⟩
  | some e =>
    simp only [Option.isNone_some]
    obtain ⟨-, ac', hfree, -⟩ :=
      redisAsyncFreeNow_spec (show WF { ac with err := some e, disconnecting := true } from
        ⟨hwf.channels, hwf.patterns⟩) hin (.inl rfl)
    exact ⟨ac', hfree⟩

end YcsbC
