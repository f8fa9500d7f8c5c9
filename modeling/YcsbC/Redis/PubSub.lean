import YcsbC.Redis.AsyncInvariant
import YcsbC.Redis.DictRuns

/-!
# Subscriptions

A program that only subscribes and unsubscribes has a callback for each of its channels and
patterns, and a message is for the callback of its channel or pattern. If there is none the message
is for the callback of the message before it, unless that was in another read.

## Main definitions

* `Subscriptions`: the callbacks of the channels and patterns.
* `subscriptions`: those that a log leaves.
* `HandsOver`: a log in which the replies are handed over to their callbacks.

## Main results

* `asyncRun_handsOver`: this is the log of any run.
-/

namespace YcsbC

open AsyncContext

/-! ### What the callbacks are for -/

/-- The callbacks of the channels (`false`) and of the patterns (`true`). -/
abbrev Subscriptions := Bool → Str → Option RedisCallback

/-- A channel or a pattern gets a callback, or loses it. -/
def Subscriptions.set (m : Subscriptions) (pvariant : Bool) (name : Str)
    (cb : Option RedisCallback) : Subscriptions :=
  Function.update m pvariant (Function.update (m pvariant) name cb)

/-- The channel or the pattern of a message. -/
def topic : RedisReply → Option (Bool × Str)
  | .array (.string stype :: .string sname :: _) =>
    some (decide (((cStr stype).headD nul).toLower = 'p'), sname)
  | _ => none

/-- A message is the last one of its channel or pattern. -/
def unsubscribes : RedisReply → Bool
  | .array (.string stype :: .string _ :: _) =>
    let stype := cStr stype
    let pvariant : Bool := (stype.headD nul).toLower = 'p'
    let kind := if pvariant then stype.tail else stype
    kind.map Char.toLower = "unsubscribe".toList
  | _ => false

/-- The subscriptions after a message. -/
def Subscriptions.afterMessage (m : Subscriptions) (reply : RedisReply) : Subscriptions :=
  match topic reply with
  | some (pvariant, name) => if unsubscribes reply then m.set pvariant name none else m
  | none => m

/-- The subscriptions after an event. -/
def Subscriptions.after (m : Subscriptions) : AsyncEvent → Subscriptions
  | .accepted cb cmd =>
    match asyncKind cmd with
    | some (.subscribe pvariant names) =>
      names.foldl (fun m name => m.set pvariant name (some cb)) m
    | _ => m
  | .called _ (some reply) => m.afterMessage reply
  | _ => m

/-- The subscriptions after the events of a log. -/
def subscriptions (log : List AsyncEvent) : Subscriptions :=
  log.foldl Subscriptions.after fun _ _ => none

/-- The callback for a message; `last` is that of the message before. -/
def Subscriptions.callback (m : Subscriptions) (last : RedisCallback) (reply : RedisReply) :
    RedisCallback :=
  ((topic reply).bind fun t => m t.1 t.2).getD last

/-- The replies `rs` have been handed over to their callbacks; `last` is the callback of the last
one since bytes have been read. A callback that is `NULL` is not called. -/
inductive HandsOver : List AsyncEvent → RedisCallback → List RedisReply → Prop
  | start : HandsOver [] ⟨none, 0⟩ []
  | accepted {log : List AsyncEvent} {last : RedisCallback} {rs : List RedisReply}
      (h : HandsOver log last rs) (cb : RedisCallback) (cmd : Str) :
      HandsOver (log ++ [.accepted cb cmd]) last rs
  | connected {log : List AsyncEvent} {last : RedisCallback} {rs : List RedisReply}
      (h : HandsOver log last rs) (ok : Bool) : HandsOver (log ++ [.connected ok]) last rs
  | received {log : List AsyncEvent} {last : RedisCallback} {rs : List RedisReply}
      (h : HandsOver log last rs) (bytes : Str) :
      HandsOver (log ++ [.received bytes]) ⟨none, 0⟩ rs
  | called {log : List AsyncEvent} {last cb : RedisCallback} {rs : List RedisReply}
      {reply : RedisReply} (h : HandsOver log last rs)
      (hcb : (subscriptions log).callback last reply = cb) (hfn : cb.fn.isSome) :
      HandsOver (log ++ [.called cb (some reply)]) cb (rs ++ [reply])
  | ignored {log : List AsyncEvent} {last cb : RedisCallback} {rs : List RedisReply}
      {reply : RedisReply} (h : HandsOver log last rs)
      (hcb : (subscriptions log).callback last reply = cb) (hfn : cb.fn = none) :
      HandsOver log cb (rs ++ [reply])

/-- A command subscribes or unsubscribes. -/
def AsyncKind.subscribes : AsyncKind → Bool
  | .subscribe _ _ => true
  | .unsubscribe => true
  | _ => false

/-- A call of a program that only subscribes and unsubscribes, with callbacks. -/
def AsyncCall.Subscribes : AsyncCall → Prop
  | .command cb cmd => cb.fn.isSome ∧ (asyncKind cmd).any AsyncKind.subscribes
  | _ => True

/-- An input of such a program. -/
def AsyncInput.Subscribes : AsyncInput → Prop
  | .call c => c.Subscribes
  | _ => True

instance : DecidablePred AsyncCall.Subscribes
  | .command cb cmd =>
    inferInstanceAs (Decidable (cb.fn.isSome ∧ (asyncKind cmd).any AsyncKind.subscribes))
  | .disconnect => .isTrue trivial
  | .free => .isTrue trivial
  | .setConnectCallback => .isTrue trivial
  | .setDisconnectCallback => .isTrue trivial

instance : DecidablePred AsyncInput.Subscribes
  | .call c => inferInstanceAs (Decidable c.Subscribes)
  | .read _ => .isTrue trivial
  | .write _ => .isTrue trivial

/-! ### The tables -/

variable {ac ac' : AsyncContext} {k : Wire} {cb last : RedisCallback} {rs : List RedisReply}
  {m : Subscriptions} {p : Bool} {name : Str}

/-- The tables of a context are those of some subscriptions, which have callbacks. -/
structure Tables (ac : AsyncContext) (m : Subscriptions) : Prop where
  wf : ac.WF
  subs : ∀ p, Denotes (ac.subs p).entries (m p)
  called : ∀ p name cb, m p name = some cb → cb.fn.isSome

theorem subs_setSubs (ac : AsyncContext) (p q : Bool) (d : Dict Str RedisCallback) :
    (ac.setSubs p d).subs q = if q = p then d else ac.subs q := by
  cases p <;> cases q <;> rfl

theorem Subscriptions.set_apply (o : Option RedisCallback) (q : Bool) (key : Str) :
    m.set p name o q key = if q = p ∧ key = name then o else m q key := by
  rw [set]
  by_cases hq : q = p
  · obtain rfl := hq
    rw [Function.update_self, Function.update_apply]
    simp
  · rw [Function.update_of_ne hq, if_neg fun h => hq h.1]

/-- Only the tables and the flag of the subscriptions differ. -/
def Retabled (ac ac' : AsyncContext) : Prop :=
  ∃ channels patterns subscribed,
    ac' = { ac with channels := channels, patterns := patterns, subscribed := subscribed }

theorem retabled_setSubs (ac : AsyncContext) (p : Bool) (d : Dict Str RedisCallback) :
    Retabled ac (ac.setSubs p d) := by
  cases p
  · exact ⟨d, ac.patterns, ac.subscribed, rfl⟩
  · exact ⟨ac.channels, d, ac.subscribed, rfl⟩

theorem Retabled.trans {ac'' : AsyncContext} (h : Retabled ac ac') (h' : Retabled ac' ac'') :
    Retabled ac ac'' := by
  obtain ⟨channels, patterns, subscribed, rfl⟩ := h
  exact h'

namespace Tables

theorem of_subs_eq (h : Tables ac m) (hchannels : ac'.channels = ac.channels)
    (hpatterns : ac'.patterns = ac.patterns) : Tables ac' m where
  wf := ⟨hchannels ▸ h.wf.channels, hpatterns ▸ h.wf.patterns⟩
  subs p := by
    rw [AsyncContext.subs, hchannels, hpatterns]
    exact h.subs p
  called := h.called

/-- An operation on one of the tables. -/
theorem setSubs (h : Tables ac m) {d : Dict Str RedisCallback} (hwf : d.WF callbackHash)
    {o : Option RedisCallback} (hd : Denotes d.entries (Function.update (m p) name o))
    (ho : ∀ cb, o = some cb → cb.fn.isSome) : Tables (ac.setSubs p d) (m.set p name o) where
  wf := h.wf.setSubs p hwf
  subs q := by
    rw [subs_setSubs, Subscriptions.set]
    split_ifs with hq
    · obtain rfl := hq
      rwa [Function.update_self]
    · rw [Function.update_of_ne hq]
      exact h.subs q
  called q key cb hcb := by
    rw [Subscriptions.set_apply] at hcb
    split_ifs at hcb
    · exact ho cb hcb
    · exact h.called q key cb hcb

theorem subscribe (h : Tables ac m) (p : Bool) (names : List Str) (hcb : cb.fn.isSome) :
    Tables (names.foldl (fun ac name =>
        ac.setSubs p (dictReplace callbackHash (ac.subs p) name cb).2) ac)
      (names.foldl (fun m name => m.set p name (some cb)) m) := by
  induction names generalizing ac m with
  | nil => exact h
  | cons name names ih =>
    obtain ⟨-, hwf, hd⟩ := (h.subs p).run ((h.wf).subs p) (.replace name cb)
    exact ih (h.setSubs hwf hd fun _ heq => Option.some.inj heq ▸ hcb)

theorem dictFind (h : Tables ac m) (p : Bool) (name : Str) :
    (dictFind callbackHash (ac.subs p) name).map Prod.snd = m p name :=
  DictAnswer.found.inj ((h.subs p).run (h.wf.subs p) (.find name)).1

/-- A message finds its callback. -/
theorem getSubscribeCallback {cb' : RedisCallback} {reply : RedisReply} (h : Tables ac m)
    (hinvalid : ac.invalid = [])
    (hget : redisGetSubscribeCallback ac cb reply = some (cb', ac')) :
    cb' = m.callback cb reply ∧ Tables ac' (m.afterMessage reply) ∧
      (cb'.fn = none → m.afterMessage reply = m) ∧ Retabled ac ac' := by
  have hsame : Retabled ac ac := ⟨ac.channels, ac.patterns, ac.subscribed, rfl⟩
  rw [redisGetSubscribeCallback.eq_def] at hget
  rw [Subscriptions.callback, Subscriptions.afterMessage]
  split at hget
  · rename_i stype sname rest
    rw [topic, unsubscribes]
    dsimp only at hget ⊢
    generalize decide (((cStr stype).headD nul).toLower = 'p') = p at hget ⊢
    generalize (if p = true then (cStr stype).tail else cStr stype).map Char.toLower = kind
      at hget ⊢
    generalize "unsubscribe".toList = word at hget ⊢
    have hfind := h.dictFind p sname
    rw [Option.bind_some, ← hfind]
    split at hget
    · rename_i hnone
      obtain ⟨rfl, rfl⟩ := hget
      have hm : m p sname = none := by rw [← hfind, hnone]; rfl
      have hset : m.set p sname none = m := by
        funext q key
        rw [Subscriptions.set_apply]
        split_ifs with hq
        · rw [hq.1, hq.2, hm]
        · rfl
      rw [hnone, hset, ite_self]
      exact ⟨rfl, h, fun _ => rfl, hsame⟩
    · rename_i e hsome
      have he : m p sname = some e.2 := by rw [← hfind, hsome]; rfl
      have hcalled := h.called p sname e.2 he
      rw [hsome, Option.map_some, Option.getD_some]
      split_ifs at hget with hkind
      · obtain ⟨-, hwf, hd⟩ := (h.subs p).run (h.wf.subs p) (.delete sname)
        have htables : Tables (ac.setSubs p (dictDelete callbackHash (ac.subs p) sname).2)
          (m.set p sname none) := h.setSubs hwf hd (by rintro _ ⟨⟩)
        rw [if_pos (decide_eq_true hkind)]
        have hset := retabled_setSubs ac p (dictDelete callbackHash (ac.subs p) sname).2
        generalize ac.setSubs p (dictDelete callbackHash (ac.subs p) sname).2 = ac₁
          at hget htables hset
        split at hget
        · obtain ⟨rfl, rfl⟩ := hget
          refine ⟨rfl, ?_, fun hnone => ?_, ?_⟩
          · split_ifs
            · exact htables.of_subs_eq rfl rfl
            · exact htables
          · rw [hnone] at hcalled
            cases hcalled
          · split_ifs
            · exact hset.trans ⟨ac₁.channels, ac₁.patterns, false, rfl⟩
            · exact hset
        · cases hget
      · obtain ⟨rfl, rfl⟩ := hget
        rw [if_neg (mt of_decide_eq_true hkind)]
        exact ⟨rfl, h, fun _ => rfl, hsame⟩
  · cases hget
  · cases hget
  · rename_i hnot _
    rw [hinvalid] at hget
    obtain ⟨rfl, rfl⟩ := hget
    have htopic : topic reply = none := by
      cases reply with
      | array elements => exact absurd rfl (hnot elements)
      | _ => rfl
    rw [htopic]
    exact ⟨rfl, h, fun _ => rfl, hsame⟩

end Tables

/-! ### Runs -/

/-- The replies `rs` have been handed over, and no callback waits for a reply. -/
structure Listens (ac : AsyncContext) (last : RedisCallback) (rs : List RedisReply) : Prop where
  log : HandsOver ac.log last rs
  tables : Tables ac (subscriptions ac.log)
  replies : ac.replies = []
  invalid : ac.invalid = []
  monitoring : ac.monitoring = false

/-- While replies are handed over the callback of the last one is known. -/
def ListensFor (ac : AsyncContext) (o : Option RedisCallback) (rs : List RedisReply) : Prop :=
  match o with
  | some last => Listens ac last rs
  | none => ∃ last, Listens ac last rs

theorem subscriptions_append (log : List AsyncEvent) (e : AsyncEvent) :
    subscriptions (log ++ [e]) = (subscriptions log).after e :=
  List.foldl_append

theorem ListensFor.listens {o : Option RedisCallback} (h : ListensFor ac o rs) :
    ∃ last, Listens ac last rs := by
  cases o with
  | none => exact h
  | some last => exact ⟨last, h⟩

namespace Listens

theorem silent (h : Listens ac last rs) (hsilent : Silent ac ac') : Listens ac' last rs where
  log := hsilent.log ▸ h.log
  tables := hsilent.log ▸ h.tables.of_subs_eq hsilent.channels hsilent.patterns
  replies := hsilent.replies.trans h.replies
  invalid := hsilent.invalid.trans h.invalid
  monitoring := hsilent.monitoring.trans h.monitoring

/-- An event after which the subscriptions are the same. -/
theorem record {e : AsyncEvent} {last' : RedisCallback} (h : Listens ac last rs)
    (he : ∀ m : Subscriptions, m.after e = m) (hlog : HandsOver (ac.log ++ [e]) last' rs) :
    Listens (ac.record e) last' rs where
  log := hlog
  tables := by
    show Tables (ac.record e) (subscriptions (ac.log ++ [e]))
    rw [subscriptions_append, he]
    exact h.tables.of_subs_eq rfl rfl
  replies := h.replies
  invalid := h.invalid
  monitoring := h.monitoring

theorem retabled_foldl (names : List Str) (ac : AsyncContext) (p : Bool) (cb : RedisCallback) :
    Retabled ac (names.foldl (fun ac name =>
      ac.setSubs p (dictReplace callbackHash (ac.subs p) name cb).2) ac) := by
  induction names generalizing ac with
  | nil => exact ⟨ac.channels, ac.patterns, ac.subscribed, rfl⟩
  | cons name names ih => exact (retabled_setSubs ac p _).trans (ih _)

/-- A command is accepted or refused. -/
theorem command {cmd : Str} {ok : Bool} (h : Listens ac last rs)
    (hcall : AsyncCall.Subscribes (.command cb cmd))
    (hrun : redisAsyncCommand ac cb cmd = some (ok, ac')) : Listens ac' last rs := by
  obtain ⟨hcb, hkind⟩ := hcall
  rw [redisAsyncCommand] at hrun
  split_ifs at hrun
  · obtain ⟨rfl, rfl⟩ := hrun
    exact h
  · cases hcmd : asyncKind cmd with
    | none =>
      rw [hcmd] at hrun
      cases hrun
    | some kind =>
      rw [hcmd] at hkind
      simp only [hcmd] at hrun
      cases kind with
      | subscribe p names =>
        have hflag : Tables { ac with subscribed := true } (subscriptions ac.log) :=
          h.tables.of_subs_eq rfl rfl
        have htables := hflag.subscribe p names hcb
        have hretabled : Retabled ac _ :=
          Retabled.trans ⟨ac.channels, ac.patterns, true, rfl⟩
            (retabled_foldl names { ac with subscribed := true } p cb)
        simp only [registerCallback] at hrun
        generalize names.foldl (fun ac name =>
          ac.setSubs p (dictReplace callbackHash (ac.subs p) name cb).2)
          { ac with subscribed := true } = ac₁ at hrun htables hretabled
        obtain ⟨channels, patterns, subscribed, rfl⟩ := hretabled
        obtain ⟨rfl, rfl⟩ := hrun
        have hafter : (subscriptions ac.log).after (.accepted cb cmd) =
            names.foldl (fun m name => m.set p name (some cb)) (subscriptions ac.log) := by
          simp only [Subscriptions.after, hcmd]
        exact
          { log := h.log.accepted cb cmd
            tables := by
              show Tables _ (subscriptions (ac.log ++ [.accepted cb cmd]))
              rw [subscriptions_append, hafter]
              exact htables.of_subs_eq rfl rfl
            replies := h.replies
            invalid := h.invalid
            monitoring := h.monitoring }
      | unsubscribe =>
        have hafter : ∀ m : Subscriptions, m.after (.accepted cb cmd) = m := fun m => by
          simp only [Subscriptions.after, hcmd]
        simp only [registerCallback] at hrun
        cases hsubscribed : ac.subscribed with
        | false =>
          simp only [hsubscribed] at hrun
          obtain ⟨rfl, rfl⟩ := hrun
          exact h
        | true =>
          simp only [hsubscribed] at hrun
          obtain ⟨rfl, rfl⟩ := hrun
          exact (h.record hafter (h.log.accepted cb cmd)).silent (by constructor <;> rfl)
      | monitor => cases hkind
      | regular => cases hkind

/-- A message is handed over. -/
theorem reply {cb' : RedisCallback} {reply : RedisReply} (h : Listens ac last rs)
    (hof : callbackOf ac last reply = some (some cb', ac')) :
    Listens (ac'.deliver cb' reply) cb' (rs ++ [reply]) := by
  obtain ⟨hcb, htables, hnone, channels, patterns, subscribed, rfl⟩ :
      cb' = (subscriptions ac.log).callback last reply ∧
        Tables ac' ((subscriptions ac.log).afterMessage reply) ∧
        (cb'.fn = none → (subscriptions ac.log).afterMessage reply = subscriptions ac.log) ∧
        Retabled ac ac' := by
    rw [callbackOf.eq_def, h.replies] at hof
    dsimp only at hof
    split at hof
    · cases hof
    · split_ifs at hof with hsubscribed hmonitoring
      · obtain ⟨⟨cb₁, ac₁⟩, hget, heq⟩ := Option.map_eq_some_iff.1 hof
        obtain ⟨rfl, rfl⟩ := heq
        exact h.tables.getSubscribeCallback h.invalid hget
      · rw [h.monitoring] at hmonitoring
        cases hmonitoring
  rw [deliver]
  cases hfn : cb'.fn with
  | none =>
    rw [if_neg (by simp)]
    rw [hnone hfn] at htables
    exact ⟨h.log.ignored hcb.symm hfn, htables, h.replies, h.invalid, h.monitoring⟩
  | some f =>
    rw [if_pos (by simp)]
    have hafter : subscriptions (ac.log ++ [.called cb' (some reply)]) =
        (subscriptions ac.log).afterMessage reply := subscriptions_append ..
    exact
      { log := h.log.called hcb.symm (by rw [hfn]; rfl)
        tables := by
          show Tables _ (subscriptions (ac.log ++ [.called cb' (some reply)]))
          rw [hafter]
          exact htables.of_subs_eq rfl rfl
        replies := h.replies
        invalid := h.invalid
        monitoring := h.monitoring }

/-- **The subscriptions are kept** by calls that subscribe and unsubscribe. -/
theorem invariant : AsyncInvariant AsyncCall.Subscribes ListensFor where
  silent {_ _ o _} h hsilent := by
    cases o with
    | none =>
      obtain ⟨last, h⟩ := h
      exact ⟨last, h.silent hsilent⟩
    | some last => exact Listens.silent h hsilent
  command {_ _ o _ _ _ _} h hcall hrun := by
    cases o with
    | none =>
      obtain ⟨last, h⟩ := h
      exact ⟨last, h.command hcall hrun⟩
    | some last => exact Listens.command h hcall hrun
  connected ok := by
    rintro ⟨last, h⟩
    exact ⟨last, h.record (fun _ => rfl) (h.log.connected ok)⟩
  received bytes := by
    rintro ⟨last, h⟩ -
    exact h.record (fun _ => rfl) (h.log.received bytes)
  reply h _ := h.reply
  idle {_ last _} h _ := by
    have hlistens : Listens _ last _ := h
    rw [repush_of_not_monitoring hlistens.monitoring]
    exact ⟨last, hlistens⟩

end Listens

section Results

variable {respond : Str → Str} {script : List (List AsyncCall)}
  {writes reads : List (Except Errno ℕ)} {inputs : List AsyncInput}

/-- **Subscriptions.** In any run of a program that only subscribes and unsubscribes, whatever its
callbacks do, the replies are handed over in their order, each to the callback that its channel or
pattern had then. Until the context is freed these are all the replies, and the tables hold the
subscriptions; when it is freed the callback of each channel and pattern is called once, without a
reply. -/
theorem asyncRun_handsOver
    (h : asyncRun respond (redisAsyncConnect script) ⟨[], 0, writes, reads⟩ inputs = some (ac, k))
    (hscript : ∀ cs ∈ script, ∀ call ∈ cs, call.Subscribes)
    (hinputs : ∀ input ∈ inputs, input.Subscribes) :
    ∃ log es last rs channels patterns, ac.log = log ++ es ∧ HandsOver log last rs ∧
      rs <+: (RedisReader.repliesOf (received ac.log) .create).1 ∧
      Denotes channels (subscriptions log false) ∧ Denotes patterns (subscriptions log true) ∧
      (channels.map Prod.fst).Nodup ∧ (patterns.map Prod.fst).Nodup ∧
      (ac.freed = false → es = [] ∧
        rs = (RedisReader.repliesOf (received ac.log) .create).1 ∧
        ac.channels.entries = channels ∧ ac.patterns.entries = patterns) ∧
      (ac.freed = true → accepted es = [] ∧ received es = [] ∧
        calls es = (channels ++ patterns).map fun e => (e.2, none)) := by
  have hstart : Listens (redisAsyncConnect script) ⟨none, 0⟩ [] :=
    ⟨.start, ⟨⟨Dict.wf_dictCreate, Dict.wf_dictCreate⟩, fun p => by cases p <;> exact .nil, nofun⟩,
      rfl, rfl, rfl⟩
  rcases Listens.invariant.asyncRun_connect ⟨_, hstart⟩ hscript
      (fun call hmem => hinputs (.call call) hmem) h with
    ⟨rs, ⟨last, hlistens⟩, ⟨hfreed, -⟩, hrs⟩ | ⟨es, ac₁, o, rs, hlistens, hends, hprefix⟩
  · refine ⟨ac.log, [], last, rs, ac.channels.entries, ac.patterns.entries,
      (List.append_nil _).symm, hlistens.log, by rw [hrs], hlistens.tables.subs false,
      hlistens.tables.subs true, hlistens.tables.wf.channels.nodup,
      hlistens.tables.wf.patterns.nodup, fun _ => ⟨rfl, by rw [hrs], rfl, rfl⟩, fun htrue => ?_⟩
    rw [hfreed] at htrue
    cases htrue
  · obtain ⟨last, hlistens⟩ := hlistens.listens
    refine ⟨ac₁.log, es, last, rs, ac₁.channels.entries, ac₁.patterns.entries, hends.log,
      hlistens.log, hprefix, hlistens.tables.subs false, hlistens.tables.subs true,
      hlistens.tables.wf.channels.nodup, hlistens.tables.wf.patterns.nodup, fun hfalse => ?_,
      fun _ => ⟨hends.accepted, hends.quiet, ?_⟩⟩
    · rw [hends.freed] at hfalse
      cases hfalse
    · have hcalled : ∀ cb ∈ (ac₁.channels.entries ++ ac₁.patterns.entries).map Prod.snd,
          cb.fn.isSome := by
        intro cb hcb
        obtain ⟨e, he, rfl⟩ := List.mem_map.1 hcb
        rcases List.mem_append.1 he with he | he
        · exact hlistens.tables.called false e.1 e.2 ((hlistens.tables.subs false _ _).2 he)
        · exact hlistens.tables.called true e.1 e.2 ((hlistens.tables.subs true _ _).2 he)
      rw [hends.calls, pendingCallbacks, hlistens.replies, hlistens.invalid, List.nil_append,
        List.nil_append, ← List.map_append, dropped_eq, List.filter_eq_self.2 hcalled,
        List.map_map]
      rfl

/-- The callback of a channel subscribes to it again, with another callback. -/
theorem asyncRun_handsOver_again :
    ∃ ac k log es last rs, asyncRun (fun _ =>
          (List.replicate 2 "*3\r\n$7\r\nmessage\r\n$1\r\na\r\n$1\r\nx\r\n".toList).flatten)
        (redisAsyncConnect [[.command ⟨some 2, 8⟩ (commandText ["subscribe".toList, "a".toList])]])
        ⟨[], 0, [.ok 100], [.ok 40, .ok 100]⟩
        [.call (.command ⟨some 1, 7⟩ (commandText ["SUBSCRIBE".toList, "a".toList, "b".toList])),
          .write none, .read none, .read none, .call .free] = some (ac, k) ∧
      ac.log = log ++ es ∧ HandsOver log last rs := by
  obtain ⟨⟨ac, k⟩, hrun⟩ := Option.isSome_iff_exists.1 (by decide :
    (asyncRun (fun _ =>
        (List.replicate 2 "*3\r\n$7\r\nmessage\r\n$1\r\na\r\n$1\r\nx\r\n".toList).flatten)
      (redisAsyncConnect [[.command ⟨some 2, 8⟩ (commandText ["subscribe".toList, "a".toList])]])
      ⟨[], 0, [.ok 100], [.ok 40, .ok 100]⟩
      [.call (.command ⟨some 1, 7⟩ (commandText ["SUBSCRIBE".toList, "a".toList, "b".toList])),
        .write none, .read none, .read none, .call .free]).isSome)
  obtain ⟨log, es, last, rs, -, -, hlog, hover, -⟩ :=
    asyncRun_handsOver hrun (by decide) (by decide)
  exact ⟨ac, k, log, es, last, rs, hrun, hlog, hover⟩

end Results

end YcsbC
