import YcsbC.Redis.AsyncInvariant

/-!
# Monitors

A monitor has one callback for all messages. After a read `redisProcessCallbacks` puts the callback
of the last reply back into the queue. A read that completes no reply puts `NULL` there instead,
beside the callback of the monitor; from then on the callback gets one more message, and the next
one is for `NULL`.

## Main definitions

* `repliesByRead`: the replies that each read completes.
* `MonitorPhase`: how far a monitor is from the loss of a message.
* `Monitors`: the queue and the calls of a monitor in its phase.

## Main results

* `asyncRun_monitor`: whether a monitor has got all messages.
-/

namespace YcsbC

open AsyncContext

/-! ### Reads -/

/-- The replies that are completed by each piece. -/
def repliesByRead : List Str → RedisReader → List (List RedisReply)
  | [], _ => []
  | piece :: pieces, r =>
    let p := (r.feed piece).replies
    p.1 :: repliesByRead pieces p.2

/-- The reads from the first one on that completes no reply. -/
def fromIdle (reads : List (List RedisReply)) : List (List RedisReply) :=
  reads.dropWhile fun rs => !rs.isEmpty

/-- The replies are completed by the last piece, or before it. -/
theorem repliesByRead_append_singleton (pieces : List Str) (piece : Str) (r : RedisReader) :
    repliesByRead (pieces ++ [piece]) r =
      repliesByRead pieces r ++
        [((RedisReader.repliesOf pieces r).2.feed piece).replies.1] := by
  induction pieces generalizing r with
  | nil => rfl
  | cons piece' pieces ih =>
    rw [List.cons_append, repliesByRead, ih]
    rfl

theorem fromIdle_append_singleton (reads : List (List RedisReply)) (rs : List RedisReply) :
    fromIdle (reads ++ [rs]) =
      if (fromIdle reads).isEmpty then fromIdle [rs] else fromIdle reads ++ [rs] :=
  List.dropWhile_append

/-! ### Phases -/

/-- No read has been without a reply; or one has, and after it no reply came, or one, or more. -/
inductive MonitorPhase
  | fresh
  | idle
  | spent
  | lost
  deriving DecidableEq

namespace MonitorPhase

/-- The phase after a read. -/
def read : MonitorPhase → List RedisReply → MonitorPhase
  | .fresh, [] => .idle
  | .fresh, _ :: _ => .fresh
  | .idle, [] => .idle
  | .idle, [_] => .spent
  | .idle, _ :: _ :: _ => .lost
  | .spent, [] => .spent
  | .spent, _ :: _ => .lost
  | .lost, _ => .lost

/-- The phase after some reads. -/
def after (reads : List (List RedisReply)) : MonitorPhase := reads.foldl read .fresh

/-- The phase when `n` replies have come after a read without one. -/
def ofCount (n : ℕ) : MonitorPhase := if n = 0 then .idle else if n = 1 then .spent else .lost

theorem ofCount_of_two_le {n : ℕ} (h : 2 ≤ n) : ofCount n = .lost := by
  rw [ofCount, if_neg (by omega), if_neg (by omega)]

theorem read_ofCount (n : ℕ) (rs : List RedisReply) :
    (ofCount n).read rs = ofCount (n + rs.length) := by
  rcases n with _ | _ | n
  · rcases rs with _ | ⟨r, _ | ⟨r', rs⟩⟩
    · rfl
    · rfl
    · exact (ofCount_of_two_le (by simp)).symm
  · cases rs with
    | nil => rfl
    | cons r rs => exact (ofCount_of_two_le (by rw [List.length_cons]; omega)).symm
  · rw [ofCount_of_two_le (by omega), ofCount_of_two_le (by omega)]
    rfl

theorem after_append_singleton (reads : List (List RedisReply)) (rs : List RedisReply) :
    after (reads ++ [rs]) = (after reads).read rs := List.foldl_append

/-- The phase counts the replies after the first read without one. -/
theorem after_eq (reads : List (List RedisReply)) :
    after reads =
      if (fromIdle reads).isEmpty then .fresh else ofCount (fromIdle reads).flatten.length := by
  induction reads using List.reverseRecOn with
  | nil => rfl
  | append_singleton reads rs ih =>
    rw [after_append_singleton, ih, fromIdle_append_singleton]
    by_cases hnil : (fromIdle reads).isEmpty
    · rw [if_pos hnil, if_pos hnil]
      cases rs <;> rfl
    · rw [if_neg hnil, if_neg hnil, if_neg (by simp), read_ofCount, List.flatten_append,
        List.length_append, List.flatten_singleton]

theorem after_ne_lost_iff (reads : List (List RedisReply)) :
    after reads ≠ .lost ↔ (fromIdle reads).flatten.length ≤ 1 := by
  rw [after_eq]
  by_cases hnil : (fromIdle reads).isEmpty
  · rw [if_pos hnil, List.isEmpty_iff.1 hnil]
    exact iff_of_true (by decide) (Nat.zero_le 1)
  · rw [if_neg hnil, ofCount]
    split_ifs with hzero hone
    · exact iff_of_true (by decide) (by omega)
    · exact iff_of_true (by decide) (by omega)
    · exact iff_of_false (not_not_intro rfl) (by omega)

variable {f last cb : RedisCallback} {q q' : List RedisCallback} {p : MonitorPhase}
  {cur rs : List RedisReply} {cs : List (RedisCallback × Option RedisReply)}

theorem read_nil_eq_lost_iff : p.read [] = .lost ↔ p = .lost := by
  cases p <;> decide

/-- What is lost stays lost. -/
theorem read_append_of_lost (h : p.read cur = .lost) (reply : RedisReply) :
    p.read (cur ++ [reply]) = .lost := by
  cases p with
  | fresh => cases cur <;> cases h
  | idle =>
    rcases cur with _ | ⟨r, _ | ⟨r', cur⟩⟩
    · cases h
    · cases h
    · rfl
  | spent =>
    cases cur with
    | nil => cases h
    | cons r cur => rfl
  | lost => rfl

/-- The queue between two reads. -/
def Queued (f : RedisCallback) (q : List RedisCallback) : MonitorPhase → Prop
  | .fresh => q = [f]
  | .idle => ∃ cb rest, q = f :: cb :: rest ∧ cb.fn = none
  | .spent => ∃ cb rest, q = cb :: rest ∧ cb.fn = none
  | .lost => True

/-- The queue in a read, and the callback of the last of its replies. -/
def Handing (f : RedisCallback) (q : List RedisCallback) (last : RedisCallback) :
    MonitorPhase → List RedisReply → Prop
  | p, [] => p.Queued f q
  | .fresh, _ :: _ => q = [] ∧ last = f
  | .idle, [_] => (∃ cb rest, q = cb :: rest ∧ cb.fn = none) ∧ last = f
  | _, _ => True

/-- The callback of a reply: the first one in the queue, or that of the last reply. -/
def Shifts (q : List RedisCallback) (last : RedisCallback) (q' : List RedisCallback)
    (cb : RedisCallback) : Prop :=
  q = cb :: q' ∨ q = [] ∧ q' = [] ∧ cb = last

/-- A reply is for the monitor, until one is lost. -/
theorem Handing.shift (h : p.Handing f q last cur) (hshift : Shifts q last q' cb)
    (reply : RedisReply) :
    p.Handing f q' cb (cur ++ [reply]) ∧ (p.read (cur ++ [reply]) ≠ .lost → cb = f) ∧
      (p.read cur ≠ .lost → p.read (cur ++ [reply]) = .lost → cb.fn = none) := by
  cases p with
  | fresh =>
    cases cur with
    | nil =>
      obtain rfl : q = [f] := h
      rcases hshift with heq | ⟨heq, -⟩
      · obtain ⟨rfl, rfl⟩ := List.cons.inj heq
        exact ⟨⟨rfl, rfl⟩, fun _ => rfl, fun _ hlost => by cases hlost⟩
      · cases heq
    | cons r cur =>
      obtain ⟨rfl, rfl⟩ : q = [] ∧ last = f := h
      rcases hshift with heq | ⟨-, rfl, rfl⟩
      · cases heq
      · exact ⟨⟨rfl, rfl⟩, fun _ => rfl, fun _ hlost => by cases hlost⟩
  | idle =>
    rcases cur with _ | ⟨r, _ | ⟨r', cur⟩⟩
    · obtain ⟨cb', rest, rfl, hfn⟩ : ∃ cb' rest, q = f :: cb' :: rest ∧ cb'.fn = none := h
      rcases hshift with heq | ⟨heq, -⟩
      · obtain ⟨rfl, rfl⟩ := List.cons.inj heq
        exact ⟨⟨⟨cb', rest, rfl, hfn⟩, rfl⟩, fun _ => rfl, fun _ hlost => by cases hlost⟩
      · cases heq
    · obtain ⟨⟨cb', rest, rfl, hfn⟩, rfl⟩ :
        (∃ cb' rest, q = cb' :: rest ∧ cb'.fn = none) ∧ last = f := h
      rcases hshift with heq | ⟨heq, -⟩
      · obtain ⟨rfl, rfl⟩ := List.cons.inj heq
        exact ⟨trivial, fun hne => absurd rfl hne, fun _ _ => hfn⟩
      · cases heq
    · exact ⟨trivial, fun hne => absurd rfl hne, fun hne => absurd rfl hne⟩
  | spent =>
    cases cur with
    | nil =>
      obtain ⟨cb', rest, rfl, hfn⟩ : ∃ cb' rest, q = cb' :: rest ∧ cb'.fn = none := h
      rcases hshift with heq | ⟨heq, -⟩
      · obtain ⟨rfl, rfl⟩ := List.cons.inj heq
        exact ⟨trivial, fun hne => absurd rfl hne, fun _ _ => hfn⟩
      · cases heq
    | cons r cur => exact ⟨trivial, fun hne => absurd rfl hne, fun hne => absurd rfl hne⟩
  | lost =>
    refine ⟨?_, fun hne => absurd rfl hne, fun hne => absurd rfl hne⟩
    cases cur <;> trivial

/-- At the end of a read the callback of its last reply goes back to the queue. -/
theorem Handing.queued (h : p.Handing f q last cur) (hfirst : cur = [] → last.fn = none) :
    (p.read cur).Queued f (q ++ [last]) := by
  cases p with
  | fresh =>
    cases cur with
    | nil =>
      obtain rfl : q = [f] := h
      exact ⟨last, [], rfl, hfirst rfl⟩
    | cons r cur =>
      obtain ⟨rfl, rfl⟩ : q = [] ∧ last = f := h
      exact rfl
  | idle =>
    rcases cur with _ | ⟨r, _ | ⟨r', cur⟩⟩
    · obtain ⟨cb, rest, rfl, hfn⟩ : ∃ cb rest, q = f :: cb :: rest ∧ cb.fn = none := h
      exact ⟨cb, rest ++ [last], rfl, hfn⟩
    · obtain ⟨⟨cb, rest, rfl, hfn⟩, -⟩ :
        (∃ cb rest, q = cb :: rest ∧ cb.fn = none) ∧ last = f := h
      exact ⟨cb, rest ++ [last], rfl, hfn⟩
    · trivial
  | spent =>
    cases cur with
    | nil =>
      obtain ⟨cb, rest, rfl, hfn⟩ : ∃ cb rest, q = cb :: rest ∧ cb.fn = none := h
      exact ⟨cb, rest ++ [last], rfl, hfn⟩
    | cons r cur => trivial
  | lost => trivial

/-- All replies `rs` have been delivered, or one has been lost. -/
def Delivered (f : RedisCallback) (cs : List (RedisCallback × Option RedisReply))
    (rs : List RedisReply) (p : MonitorPhase) : Prop :=
  if p = .lost then cs.length < rs.length else cs = rs.map fun r => (f, some r)

theorem Delivered.iff (h : p.Delivered f cs rs) :
    (cs = rs.map fun r => (f, some r)) ↔ p ≠ .lost := by
  rw [Delivered] at h
  split_ifs at h with hlost
  · refine iff_of_false (fun heq => ?_) (not_not_intro hlost)
    rw [heq, List.length_map] at h
    exact lt_irrefl _ h
  · exact iff_of_true h hlost

theorem Delivered.nil (h : p.Delivered f cs rs) : (p.read []).Delivered f cs rs := by
  rw [Delivered] at h ⊢
  simp only [read_nil_eq_lost_iff]
  exact h

theorem Delivered.append (h : (p.read cur).Delivered f cs rs) (hf : f.fn.isSome)
    {reply : RedisReply} (hcb : p.read (cur ++ [reply]) ≠ .lost → cb = f)
    (hnone : p.read cur ≠ .lost → p.read (cur ++ [reply]) = .lost → cb.fn = none) :
    (p.read (cur ++ [reply])).Delivered f (cs ++ called cb (some reply)) (rs ++ [reply]) := by
  rw [Delivered] at h ⊢
  by_cases hlost : p.read (cur ++ [reply]) = .lost
  · rw [if_pos hlost, List.length_append, List.length_append, List.length_singleton]
    split_ifs at h with hbefore
    · have hle : (called cb (some reply)).length ≤ 1 := by
        rw [called]
        split_ifs <;> simp
      omega
    · rw [called, hnone hbefore hlost, h, List.length_map]
      simp
  · have hbefore : p.read cur ≠ .lost := fun heq => hlost (read_append_of_lost heq reply)
    rw [if_neg hbefore] at h
    obtain rfl := hcb hlost
    rw [if_neg hlost, h, called, if_pos hf, List.map_append, List.map_singleton]

end MonitorPhase

/-! ### Runs -/

/-- A call that is no command. -/
def AsyncCall.Passive : AsyncCall → Prop
  | .command _ _ => False
  | _ => True

/-- An input that is no command. -/
def AsyncInput.Passive : AsyncInput → Prop
  | .call c => c.Passive
  | _ => True

instance : DecidablePred AsyncCall.Passive
  | .command _ _ => .isFalse id
  | .disconnect => .isTrue trivial
  | .free => .isTrue trivial
  | .setConnectCallback => .isTrue trivial
  | .setDisconnectCallback => .isTrue trivial

instance : DecidablePred AsyncInput.Passive
  | .call c => inferInstanceAs (Decidable c.Passive)
  | .read _ => .isTrue trivial
  | .write _ => .isTrue trivial

/-- The phase of a monitor that has read some pieces. -/
def monitorPhase (pieces : List Str) : MonitorPhase :=
  .after (repliesByRead pieces .create)

/-- A monitor between two reads. -/
structure Watches (f : RedisCallback) (ac : AsyncContext) (rs : List RedisReply) : Prop where
  monitoring : ac.monitoring = true
  subscribed : ac.subscribed = false
  queued : (monitorPhase (received ac.log)).Queued f ac.replies
  delivered : (monitorPhase (received ac.log)).Delivered f (calls ac.log) rs

/-- A monitor in a read that has completed the replies in `cur` so far. -/
structure Hands (f : RedisCallback) (ac : AsyncContext) (last : RedisCallback)
    (rs : List RedisReply) (pieces : List Str) (piece : Str) (cur : List RedisReply) : Prop where
  monitoring : ac.monitoring = true
  subscribed : ac.subscribed = false
  received_eq : received ac.log = pieces ++ [piece]
  replies_eq : rs = (RedisReader.repliesOf pieces .create).1 ++ cur
  handing : (monitorPhase pieces).Handing f ac.replies last cur
  first : cur = [] → last.fn = none
  delivered : ((monitorPhase pieces).read cur).Delivered f (calls ac.log) rs

/-- The queue and the calls of a monitor are those of its phase. -/
def Monitors (f : RedisCallback) (ac : AsyncContext) (o : Option RedisCallback)
    (rs : List RedisReply) : Prop :=
  match o with
  | none => Watches f ac rs
  | some last => ∃ pieces piece cur, Hands f ac last rs pieces piece cur

variable {ac ac' : AsyncContext} {k : Wire} {f cb last : RedisCallback} {rs cur : List RedisReply}
  {pieces : List Str} {piece : Str} {reply : RedisReply}

theorem monitorPhase_append_singleton (pieces : List Str) (piece : Str) :
    monitorPhase (pieces ++ [piece]) = (monitorPhase pieces).read
      ((RedisReader.repliesOf pieces .create).2.feed piece).replies.1 := by
  rw [monitorPhase, repliesByRead_append_singleton, MonitorPhase.after_append_singleton]
  rfl

namespace Watches

theorem silent (h : Watches f ac rs) (hsilent : Silent ac ac') : Watches f ac' rs where
  monitoring := hsilent.monitoring.trans h.monitoring
  subscribed := hsilent.subscribed.trans h.subscribed
  queued := by rw [hsilent.log, hsilent.replies]; exact h.queued
  delivered := by rw [hsilent.log]; exact h.delivered

theorem connected (h : Watches f ac rs) (ok : Bool) : Watches f (ac.record (.connected ok)) rs := by
  have hreceived : received (ac.log ++ [.connected ok]) = received ac.log :=
    (received_append ..).trans (List.append_nil _)
  have hcalls : calls (ac.log ++ [.connected ok]) = calls ac.log :=
    (calls_append ..).trans (List.append_nil _)
  refine ⟨h.monitoring, h.subscribed, ?_, ?_⟩
  · show (monitorPhase (received (ac.log ++ [.connected ok]))).Queued f ac.replies
    rw [hreceived]
    exact h.queued
  · show (monitorPhase (received (ac.log ++ [.connected ok]))).Delivered f
      (calls (ac.log ++ [.connected ok])) rs
    rw [hreceived, hcalls]
    exact h.delivered

theorem received (h : Watches f ac rs) (bytes : Str)
    (hrs : rs = (RedisReader.repliesOf (received ac.log) .create).1) :
    Hands f (ac.record (.received bytes)) ⟨none, 0⟩ rs (YcsbC.received ac.log) bytes [] := by
  have hcalls : calls (ac.log ++ [.received bytes]) = calls ac.log :=
    (calls_append ..).trans (List.append_nil _)
  refine ⟨h.monitoring, h.subscribed, received_append .., ?_, ?_, fun _ => rfl, ?_⟩
  · rw [List.append_nil, hrs]
  · have hqueued := h.queued
    generalize monitorPhase (YcsbC.received ac.log) = p at hqueued
    cases p <;> exact hqueued
  · show MonitorPhase.Delivered f (calls (ac.log ++ [.received bytes])) rs _
    rw [hcalls]
    exact h.delivered.nil

end Watches

namespace Hands

theorem silent (h : Hands f ac last rs pieces piece cur) (hsilent : Silent ac ac') :
    Hands f ac' last rs pieces piece cur where
  monitoring := hsilent.monitoring.trans h.monitoring
  subscribed := hsilent.subscribed.trans h.subscribed
  received_eq := by rw [hsilent.log]; exact h.received_eq
  replies_eq := h.replies_eq
  handing := by rw [hsilent.replies]; exact h.handing
  first := h.first
  delivered := by rw [hsilent.log]; exact h.delivered

theorem shifts (h : Hands f ac last rs pieces piece cur)
    (hof : callbackOf ac last reply = some (some cb, ac')) :
    MonitorPhase.Shifts ac.replies last ac'.replies cb ∧
      ac' = { ac with replies := ac'.replies } := by
  rw [callbackOf.eq_def] at hof
  split at hof
  · rename_i hreplies
    obtain ⟨rfl, rfl⟩ := hof
    exact ⟨.inl hreplies, rfl⟩
  · rename_i hreplies
    split at hof
    · cases hof
    · rw [if_neg (by rw [h.subscribed]; exact Bool.false_ne_true), if_pos h.monitoring] at hof
      obtain ⟨rfl, rfl⟩ := hof
      exact ⟨.inr ⟨hreplies, hreplies, rfl⟩, rfl⟩

theorem handOver (h : Hands f ac last rs pieces piece cur) (hf : f.fn.isSome)
    (hof : callbackOf ac last reply = some (some cb, ac')) :
    Hands f (ac'.deliver cb reply) cb (rs ++ [reply]) pieces piece (cur ++ [reply]) := by
  obtain ⟨hshift, heq⟩ := h.shifts hof
  obtain ⟨hhanding, hcb, hnone⟩ := h.handing.shift hshift reply
  obtain ⟨hlog, -⟩ := callbackOf_log hof
  have hreceived := received_deliver ac' cb reply
  have hcalls := calls_deliver ac' cb reply
  rw [hlog] at hreceived hcalls
  have hmonitoring : ac'.monitoring = true := heq ▸ h.monitoring
  have hsubscribed : ac'.subscribed = false := heq ▸ h.subscribed
  rw [deliver_eq]
  exact
    { monitoring := hmonitoring
      subscribed := hsubscribed
      received_eq := hreceived.trans h.received_eq
      replies_eq := by rw [h.replies_eq, List.append_assoc]
      handing := hhanding
      first := fun hnil =>
        absurd hnil (List.append_ne_nil_of_right_ne_nil cur (List.cons_ne_nil _ _))
      delivered := by
        show MonitorPhase.Delivered f (calls (ac'.deliver cb reply).log) _ _
        rw [hcalls]
        exact h.delivered.append hf hcb hnone }

theorem idle (h : Hands f ac last rs pieces piece cur)
    (hrs : rs = (RedisReader.repliesOf (received ac.log) .create).1) :
    Watches f (ac.repush last) rs := by
  have hcur : cur = ((RedisReader.repliesOf pieces .create).2.feed piece).replies.1 := by
    rw [h.replies_eq, h.received_eq, repliesOf_append_singleton] at hrs
    exact List.append_cancel_left hrs
  have hphase : monitorPhase (received ac.log) = (monitorPhase pieces).read cur := by
    rw [h.received_eq, monitorPhase_append_singleton, hcur]
  rw [repush_of_monitoring h.monitoring]
  refine ⟨h.monitoring, h.subscribed, ?_, ?_⟩
  · show (monitorPhase (received ac.log)).Queued f (ac.replies ++ [last])
    rw [hphase]
    exact h.handing.queued h.first
  · show (monitorPhase (received ac.log)).Delivered f (calls ac.log) rs
    rw [hphase]
    exact h.delivered

end Hands

/-- **The phase is kept** by calls that are no commands. -/
theorem Monitors.invariant (hf : f.fn.isSome) : AsyncInvariant AsyncCall.Passive (Monitors f) where
  silent {_ _ o _} h hsilent := by
    cases o with
    | none => exact Watches.silent h hsilent
    | some last =>
      obtain ⟨pieces, piece, cur, h⟩ := h
      exact ⟨pieces, piece, cur, h.silent hsilent⟩
  command _ hcall := hcall.elim
  connected ok h := Watches.connected h ok
  received bytes h hrs := ⟨_, bytes, [], Watches.received h bytes hrs⟩
  reply := by
    rintro _ _ _ _ _ _ ⟨pieces, piece, cur, h⟩ - hof
    exact ⟨pieces, piece, _, h.handOver hf hof⟩
  idle := by
    rintro _ _ _ ⟨pieces, piece, cur, h⟩ hrs
    exact h.idle hrs

section Results

variable {respond : Str → Str} {script : List (List AsyncCall)}
  {writes reads : List (Except Errno ℕ)} {inputs : List AsyncInput} {cmd : Str}

theorem watches_of_command (hcmd : asyncKind cmd = some .monitor)
    (hcommand : (AsyncCall.command f cmd).run (redisAsyncConnect script) = some ac) :
    Watches f ac [] ∧ ac.freed = false ∧ ac.script = script ∧ received ac.log = [] ∧
      ac.c.reader = .create := by
  rw [AsyncCall.run, redisAsyncCommand, hcmd] at hcommand
  obtain rfl := Option.some.inj hcommand
  exact ⟨⟨rfl, rfl, rfl, rfl⟩, rfl, rfl, rfl, rfl⟩

/-- **What a monitor gets.** In any run of a program whose only command is the first one and makes
it a monitor, whatever its callbacks do: until the context is freed all messages have been handed
over to the callback of the monitor if and only if at most one was completed after the first read
that completed none. -/
theorem asyncRun_monitor
    (h : asyncRun respond (redisAsyncConnect script) ⟨[], 0, writes, reads⟩
      (.call (.command f cmd) :: inputs) = some (ac, k))
    (hf : f.fn.isSome) (hcmd : asyncKind cmd = some .monitor)
    (hscript : ∀ cs ∈ script, ∀ call ∈ cs, call.Passive)
    (hinputs : ∀ input ∈ inputs, input.Passive) (hfreed : ac.freed = false) :
    (calls ac.log = (RedisReader.repliesOf (received ac.log) .create).1.map fun r => (f, some r)) ↔
      (fromIdle (repliesByRead (received ac.log) .create)).flatten.length ≤ 1 := by
  rw [asyncRun, List.foldlM_cons] at h
  obtain ⟨⟨ac₁, k₁⟩, hstep, hrest⟩ := Option.bind_eq_some_iff.1 h
  have halive := (alive_redisAsyncConnect script writes reads).step hstep
  obtain ⟨ac₂, hcommand, heq⟩ := Option.map_eq_some_iff.1 hstep
  obtain ⟨rfl, rfl⟩ := heq
  obtain ⟨hwatches, hfreed₁, hscript₁, hreceived, hreader⟩ := watches_of_command hcmd hcommand
  have hstart : Holding AsyncCall.Passive (Monitors f) ac₁ := by
    refine .inl ⟨[], hwatches, ⟨hfreed₁, hscript₁ ▸ hscript⟩, ?_⟩
    rw [hreceived, hreader]
    rfl
  rcases (Monitors.invariant hf).asyncRun hstart halive
      (fun call hmem => hinputs (.call call) hmem) hrest with
    ⟨rs, hmonitors, -, hrs⟩ | ⟨es, ac₃, o, rs, -, hends, -⟩
  · have hwatches : Watches f ac rs := hmonitors
    rw [← MonitorPhase.after_ne_lost_iff, hrs]
    exact hwatches.delivered.iff
  · rw [hends.freed] at hfreed
    cases hfreed

/-- The second read ends within a message, and the third one completes two messages. -/
theorem asyncRun_monitor_lost :
    ∃ ac k, asyncRun (fun _ => "+OK\r\n+a\r\n+b\r\n".toList) (redisAsyncConnect [])
        ⟨[], 0, [.ok 100], [.ok 5, .ok 2, .ok 100]⟩
        [.call (.command ⟨some 1, 7⟩ (commandText ["MONITOR".toList])), .write none, .read none,
          .read none, .read none] = some (ac, k) ∧
      calls ac.log ≠ (RedisReader.repliesOf (received ac.log) .create).1.map
        fun r => (⟨some 1, 7⟩, some r) := by
  obtain ⟨⟨ac, k⟩, hrun, hstate⟩ := Option.map_eq_some_iff.1 (by decide :
    (asyncRun (fun _ => "+OK\r\n+a\r\n+b\r\n".toList) (redisAsyncConnect [])
      ⟨[], 0, [.ok 100], [.ok 5, .ok 2, .ok 100]⟩
      [.call (.command ⟨some 1, 7⟩ (commandText ["MONITOR".toList])), .write none, .read none,
        .read none, .read none]).map (fun p => (p.1.freed,
          (fromIdle (repliesByRead (received p.1.log) .create)).flatten.length)) = some (false, 2))
  obtain ⟨hfreed, hlate⟩ := Prod.mk.inj hstate
  refine ⟨ac, k, hrun, fun hcalls => ?_⟩
  have hle := (asyncRun_monitor hrun rfl (by decide) (by decide) (by decide) hfreed).1 hcalls
  dsimp only at hlate
  omega

end Results

end YcsbC
