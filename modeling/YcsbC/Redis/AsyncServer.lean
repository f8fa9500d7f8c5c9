import YcsbC.Redis.AsyncQueue
import YcsbC.Redis.Exchanges

/-!
# An asynchronous context and its server

A server answers the commands in their order. Then the callback of a command gets the reply to that
command, however the commands and the replies are cut into pieces and whatever the callbacks do, and
no assertion fails.

## Main definitions

* `Serves`: a server that answers commands.
* `Follows`: what has been read is the beginning of what the server sends.

## Main results

* `asyncRun_replies`: the callback of a command gets its reply.
* `asyncRun_handleRead`: the handler returns.
-/

namespace YcsbC

open AsyncContext

variable {ac ac' : AsyncContext} {k k' : Wire} {respond : Str → Str} {encode : RedisReply → Str}
  {xs : List Exchange} {U : Str} {pieces : List Str}

/-! ### The reader -/

/-- What is left unread is shorter than a reply. -/
theorem length_run_le {rs : List RedisReply} {bs : List Str} (h : List.Forall₂ (Encodes 0) rs bs)
    {n : ℕ} (hbs : ∀ t ∈ bs, t.length ≤ n) {b missing : Str} (hb : bs.flatten = b ++ missing) :
    (replyMachine.run .idle b).2.2.length ≤ n := by
  induction h generalizing b with
  | nil =>
    obtain ⟨rfl, -⟩ := List.append_eq_nil_iff.1 hb.symm
    exact (StreamMachine.run_suffix _ []).length_le.trans (Nat.zero_le n)
  | @cons r t rs bs hr hrs ih =>
    rw [List.flatten_cons] at hb
    by_cases hle : t.length ≤ b.length
    · obtain ⟨b', rfl⟩ : t <+: b :=
        List.prefix_of_prefix_length_le (List.prefix_append t _) (hb ▸ List.prefix_append b _) hle
      rw [List.append_assoc, List.append_cancel_left_eq] at hb
      rw [hr.takes.run_append]
      exact ih (fun t' ht' => hbs t' (List.mem_cons_of_mem t ht')) hb
    · have ht := hbs t List.mem_cons_self
      have hsuffix := (StreamMachine.run_suffix (M := replyMachine) .idle b).length_le
      omega

namespace RedisReader

theorem fits_append_singleton (r : RedisReader) (pieces : List Str) (piece : Str) :
    r.Fits (pieces ++ [piece]) ↔
      r.Fits pieces ∧ ((repliesOf pieces r).2.feed piece).unread.length ≤ 2 ^ 31 := by
  induction pieces generalizing r with
  | nil => exact ⟨fun h => ⟨trivial, h.1⟩, fun h => ⟨h.2, trivial⟩⟩
  | cons piece' pieces ih =>
    rw [List.cons_append, Fits, ih, Fits, ← and_assoc]
    rfl

/-- A stream of replies fits if none of them is too long. -/
theorem fits_of_encodes {rs : List RedisReply} {bs : List Str} (h : List.Forall₂ (Encodes 0) rs bs)
    (hbs : ∀ t ∈ bs, t.length + 1024 * 16 ≤ 2 ^ 31)
    (hpieces : ∀ piece ∈ pieces, piece.length ≤ 1024 * 16) (hb : pieces.flatten <+: bs.flatten) :
    create.Fits pieces := by
  induction pieces using List.reverseRecOn with
  | nil => trivial
  | append_singleton pieces piece ih =>
    have hfront : pieces.flatten <+: bs.flatten := by
      rw [List.flatten_append] at hb
      exact (List.prefix_append _ _).trans hb
    have hfits := ih (fun p hp => hpieces p (List.mem_append_left _ hp)) hfront
    refine (fits_append_singleton create pieces piece).2 ⟨hfits, ?_⟩
    obtain ⟨missing, hmissing⟩ := hfront
    have hrest := length_run_le h (n := 2 ^ 31 - 1024 * 16)
      (fun t ht => by have := hbs t ht; omega) hmissing.symm
    have hunread := (repliesOf_create hfits).2.length_unread_le
    have hfeed := length_unread_feed_le (repliesOf pieces create).2 piece
    have hpiece := hpieces piece (List.mem_append_right _ List.mem_cons_self)
    omega

end RedisReader

/-! ### What has been read -/

/-- What has been read is the beginning of `U`, in pieces that are not longer than the buffer. -/
structure Follows (U : Str) (ac : AsyncContext) (k : Wire) : Prop where
  count : ac.freed = false → k.received = (received ac.log).flatten.length
  begins : (received ac.log).flatten <+: U
  piece_le : ∀ piece ∈ received ac.log, piece.length ≤ 1024 * 16

theorem append_drop_take_prefix {r v : Str} (hr : r <+: U) (hv : v <+: U) (m : ℕ) :
    r ++ (v.drop r.length).take m <+: U := by
  obtain ⟨w, rfl⟩ := hr
  refine (List.prefix_append_right_inj r).2 ((List.take_prefix _ _).trans ?_)
  have hdrop := hv.drop r.length
  rwa [List.drop_left] at hdrop

theorem Follows.step (h : Follows U ac k) (hfreed : ac.freed = false)
    (hreads : ReadsNext respond ac k ac' k') (hU : respond k.sent <+: U) : Follows U ac' k' := by
  rcases hreads with ⟨hreceived, hcount⟩ | ⟨hreceived, hcount, hle⟩
  · exact ⟨fun hfreed' => by rw [hcount hfreed', hreceived, h.count hfreed],
      hreceived ▸ h.begins, hreceived ▸ h.piece_le⟩
  · have hflatten : (received ac'.log).flatten =
        (received ac.log).flatten ++ readBytes respond k k' := by
      rw [hreceived, List.flatten_append, List.flatten_singleton]
    refine ⟨fun _ => ?_, ?_, fun piece hpiece => ?_⟩
    · rw [hcount, hflatten, List.length_append, h.count hfreed]
    · rw [hflatten, readBytes, h.count hfreed]
      exact append_drop_take_prefix h.begins hU _
    · rw [hreceived, List.mem_append, List.mem_singleton] at hpiece
      rcases hpiece with hpiece | rfl
      · exact h.piece_le piece hpiece
      · exact hle

/-! ### What has been written -/

theorem redisBufferWrite_sent {c c' : ByteContext} {ok : Bool}
    (h : redisBufferWrite c k = some (ok, c', k')) : k.sent <+: k'.sent := by
  rw [redisBufferWrite] at h
  split_ifs at h
  · obtain ⟨rfl, rfl, rfl⟩ := h
    exact List.prefix_refl _
  · obtain ⟨rfl, rfl, rfl⟩ := h
    exact List.prefix_refl _
  · split at h
    · cases h
    · obtain ⟨rfl, rfl, rfl⟩ := h
      exact List.prefix_append _ _
    · split_ifs at h <;> obtain ⟨rfl, rfl, rfl⟩ := h <;> exact List.prefix_refl _

/-- Nothing that has been written is taken back. -/
theorem asyncStep_sent {input : AsyncInput} (h : asyncStep respond ac k input = some (ac', k')) :
    k.sent <+: k'.sent := by
  rw [asyncStep.eq_def] at h
  split_ifs at h
  cases input with
  | call call =>
    obtain ⟨ac₁, -, heq⟩ := Option.map_eq_some_iff.1 h
    obtain ⟨rfl, rfl⟩ := heq
    exact List.prefix_refl _
  | read sock =>
    simp only [redisAsyncHandleRead] at h
    split at h
    · cases h
    · obtain ⟨rfl, rfl⟩ := h
      exact List.prefix_refl _
    · split at h
      · cases h
      · rename_i hread
        obtain ⟨ac₂, -, heq⟩ := Option.map_eq_some_iff.1 h
        obtain ⟨rfl, rfl⟩ := heq
        exact (redisBufferRead_feeds hread).1 ▸ List.prefix_refl _
      · rename_i hread
        obtain ⟨ac₂, -, heq⟩ := Option.map_eq_some_iff.1 h
        obtain ⟨rfl, rfl⟩ := heq
        exact (redisBufferRead_feeds hread).1 ▸ List.prefix_refl _
  | write sock =>
    simp only [redisAsyncHandleWrite] at h
    split at h
    · cases h
    · obtain ⟨rfl, rfl⟩ := h
      exact List.prefix_refl _
    · split at h
      · cases h
      · rename_i hwrite
        obtain ⟨ac₂, -, heq⟩ := Option.map_eq_some_iff.1 h
        obtain ⟨rfl, rfl⟩ := heq
        exact redisBufferWrite_sent hwrite
      · rename_i hwrite
        obtain ⟨rfl, rfl⟩ := h
        exact redisBufferWrite_sent hwrite

theorem asyncRun_sent {inputs : List AsyncInput}
    (h : asyncRun respond ac k inputs = some (ac', k')) : k.sent <+: k'.sent := by
  induction inputs generalizing ac k with
  | nil =>
    obtain ⟨rfl, rfl⟩ := h
    exact List.prefix_refl _
  | cons input inputs ih =>
    rw [asyncRun, List.foldlM_cons] at h
    obtain ⟨⟨ac₁, k₁⟩, hstep, hrest⟩ := Option.bind_eq_some_iff.1 h
    exact (asyncStep_sent hstep).trans (ih hrest)

/-! ### Runs -/

theorem invariant_true : AsyncInvariant (fun _ => True) fun _ _ _ => True where
  silent _ _ := trivial
  command _ _ _ := trivial
  connected _ _ := trivial
  received _ _ _ := trivial
  reply _ _ _ := trivial
  idle _ _ := trivial

theorem Follows.asyncRun {inputs : List AsyncInput} (h : Follows U ac k)
    (hholding : Holding (fun _ => True) (fun _ _ _ => True) ac) (ha : Alive ac k ∨ Ended ac k)
    (hrun : asyncRun respond ac k inputs = some (ac', k'))
    (hU : ∀ s, s <+: k'.sent → respond s <+: U) : Follows U ac' k' := by
  induction inputs generalizing ac k with
  | nil =>
    obtain ⟨rfl, rfl⟩ := hrun
    exact h
  | cons input inputs ih =>
    rcases ha with halive | hended
    · obtain ⟨rs, -, hobeys, hrs⟩ | ⟨es, ac₀, o, rs, -, hends, -⟩ := hholding
      · rw [YcsbC.asyncRun, List.foldlM_cons] at hrun
        obtain ⟨⟨ac₁, k₁⟩, hstep, hrest⟩ := Option.bind_eq_some_iff.1 hrun
        obtain ⟨hholding₁, hreads⟩ :=
          invariant_true.step trivial hobeys halive (fun _ _ => trivial) hrs hstep
        have hsent := hU _ ((asyncStep_sent hstep).trans (asyncRun_sent hrest))
        exact ih (h.step halive.freed hreads hsent) hholding₁ (halive.step hstep) hrest
      · have hfreed := halive.freed
        rw [hends.freed] at hfreed
        cases hfreed
    · obtain ⟨rfl, rfl⟩ := asyncRun_of_freed hended.freed hrun
      exact h

/-- A server that answers commands: what it sends is the beginning of their replies. -/
def Serves (encode : RedisReply → Str) (respond : Str → Str) (xs : List Exchange) : Prop :=
  ∀ s, s <+: commandTexts xs → respond s <+: replyTexts encode xs

theorem Framed.encodes (h : Framed encode xs) :
    List.Forall₂ (Encodes 0) (xs.map Prod.snd) (xs.map fun x => encode x.2) := by
  rw [List.forall₂_map_left_iff, List.forall₂_map_right_iff, List.forall₂_same]
  exact fun x hx => (h x hx).1

theorem Follows.fits (h : Follows (replyTexts encode xs) ac k) (hframed : Framed encode xs) :
    RedisReader.create.Fits (received ac.log) := by
  refine RedisReader.fits_of_encodes hframed.encodes (fun t ht => ?_) h.piece_le h.begins
  obtain ⟨x, hx, rfl⟩ := List.mem_map.1 ht
  exact (hframed x hx).2

theorem Follows.replies_eq (h : Follows (replyTexts encode xs) ac k) (hframed : Framed encode xs) :
    (RedisReader.repliesOf (received ac.log) .create).1 =
      (xs.map Prod.snd).take
        (complete (xs.map fun x => encode x.2) (received ac.log).flatten.length) := by
  obtain ⟨missing, hmissing⟩ := h.begins
  rw [(RedisReader.repliesOf_create (h.fits hframed)).1]
  exact run_eq_take hframed.encodes hmissing.symm

section Results

variable {script : List (List AsyncCall)} {writes reads : List (Except Errno ℕ)}
  {inputs : List AsyncInput}

theorem follows_redisAsyncConnect :
    Follows U (redisAsyncConnect script) ⟨[], 0, writes, reads⟩ where
  count _ := rfl
  begins := List.nil_prefix
  piece_le := nofun

theorem texts_eq_commandTexts {cmds : List (RedisCallback × Str)}
    (h : cmds.map Prod.snd = xs.map fun x => commandText x.1) : texts cmds = commandTexts xs := by
  rw [texts, h]
  rfl

/-- What a run has read from its server. -/
theorem asyncRun_follows
    (h : asyncRun respond (redisAsyncConnect script) ⟨[], 0, writes, reads⟩ inputs = some (ac, k))
    (hxs : (accepted ac.log).map Prod.snd = xs.map fun x => commandText x.1)
    (hserves : Serves encode respond xs) :
    k.sent <+: commandTexts xs ∧ Follows (replyTexts encode xs) ac k := by
  have halive := alive_redisAsyncConnect script writes reads
  have hsent : k.sent <+: commandTexts xs := by
    rw [← texts_eq_commandTexts hxs]
    rcases halive.asyncRun h with halive' | hended
    · exact ⟨_, halive'.texts⟩
    · exact hended.sent
  have hstart : Holding (fun _ => True) (fun _ _ _ => True) (redisAsyncConnect script) :=
    .inl ⟨[], trivial, ⟨rfl, fun _ _ _ _ => trivial⟩, rfl⟩
  exact ⟨hsent, follows_redisAsyncConnect.asyncRun hstart (.inl halive) h fun s hs =>
    hserves s (hs.trans hsent)⟩

theorem length_callbacks {log : List AsyncEvent}
    (h : (accepted log).map Prod.snd = xs.map fun x => commandText x.1) :
    (callbacks log).length = xs.length := by
  rw [callbacks, List.length_map, ← List.length_map (f := Prod.snd), h, List.length_map]

/-- **A command gets its reply.** In any run with regular commands over a server that answers them,
the callbacks of the first commands get the replies to these commands, whatever the callbacks do and
however the bytes are cut into pieces. Until the context is freed these are all the commands whose
reply has arrived; when it is freed the other callbacks are called without a reply. -/
theorem asyncRun_replies
    (h : asyncRun respond (redisAsyncConnect script) ⟨[], 0, writes, reads⟩ inputs = some (ac, k))
    (hscript : ∀ cs ∈ script, ∀ call ∈ cs, call.Regular)
    (hinputs : ∀ input ∈ inputs, input.Regular)
    (hxs : (accepted ac.log).map Prod.snd = xs.map fun x => commandText x.1)
    (hframed : Framed encode xs) (hserves : Serves encode respond xs) :
    ∃ n m, calls ac.log = deliveries (callbacks ac.log)
        ((xs.take n).map (fun x => some x.2) ++ List.replicate m none) ∧
      n + m ≤ xs.length ∧
      (ac.freed = false → m = 0 ∧ n = complete (xs.map fun x => encode x.2) k.received) ∧
      (ac.freed = true → n + m = xs.length ∧ (ac.freeing = false → ac.err = none → m = 0)) := by
  obtain ⟨-, hfollows⟩ := asyncRun_follows h hxs hserves
  have hlength := length_callbacks hxs
  obtain ⟨rs, m, hcalls, hle, hprefix, hopen, hended⟩ :=
    calls_of_holding (Fifo.holding h hscript hinputs)
  rw [hfollows.replies_eq hframed] at hprefix hopen
  have hrs : rs = (xs.map Prod.snd).take rs.length :=
    List.prefix_iff_eq_take.1 (List.IsPrefix.trans hprefix (List.take_prefix _ _))
  refine ⟨rs.length, m, ?_, by omega, fun hfreed => ?_, fun hfreed => ?_⟩
  · rw [hcalls]
    congr 2
    conv_lhs => rw [hrs, ← List.map_take, List.map_map]
    rfl
  · obtain ⟨rfl, hall⟩ := hopen hfreed
    have hcount := complete_le (xs.map fun x => encode x.2) k.received
    rw [List.length_map] at hcount
    refine ⟨rfl, ?_⟩
    rw [hall, hfollows.count hfreed, List.length_take_of_le]
    rw [List.length_map, ← hfollows.count hfreed]
    exact hcount
  · rw [← hlength]
    exact hended hfreed

/-- Three commands, of which the callback of the first sends the last; the third has not got a reply
yet. -/
theorem asyncRun_replies_ping :
    ∃ ac k n m, asyncRun (fun s => (replyTexts (fun _ => "+PONG\r\n".toList)
          (List.replicate 3 (["PING".toList], .status "PONG".toList))).take (7 * (s.length / 14)))
        (redisAsyncConnect [[.command ⟨some 2, 8⟩ (commandText ["PING".toList])]])
        ⟨[], 0, [.ok 10, .ok 100], [.ok 9, .ok 4, .ok 100]⟩
        [.call (.command ⟨some 1, 7⟩ (commandText ["PING".toList])),
          .call (.command ⟨none, 7⟩ (commandText ["PING".toList])), .write none, .write none,
          .read none, .read none] = some (ac, k) ∧
      calls ac.log = deliveries (callbacks ac.log)
        (((List.replicate 3 ((["PING".toList], .status "PONG".toList) : Exchange)).take n).map
          (fun x => some x.2) ++ List.replicate m none) := by
  obtain ⟨⟨ac, k⟩, hrun, hxs⟩ := Option.map_eq_some_iff.1 (by decide :
    (asyncRun (fun s => (replyTexts (fun _ => "+PONG\r\n".toList)
        (List.replicate 3 (["PING".toList], .status "PONG".toList))).take (7 * (s.length / 14)))
      (redisAsyncConnect [[.command ⟨some 2, 8⟩ (commandText ["PING".toList])]])
      ⟨[], 0, [.ok 10, .ok 100], [.ok 9, .ok 4, .ok 100]⟩
      [.call (.command ⟨some 1, 7⟩ (commandText ["PING".toList])),
        .call (.command ⟨none, 7⟩ (commandText ["PING".toList])), .write none, .write none,
        .read none, .read none]).map (fun p => (accepted p.1.log).map Prod.snd) =
      some (List.replicate 3 (commandText ["PING".toList])))
  have hframed : Framed (fun _ => "+PONG\r\n".toList)
      (List.replicate 3 (["PING".toList], .status "PONG".toList)) := by
    intro x hx
    rw [List.eq_of_mem_replicate hx]
    have hencodes : Encodes 0 (.status "PONG".toList) ('+' :: ("PONG".toList ++ crlf)) :=
      .status (by decide)
    exact ⟨hencodes, by decide⟩
  obtain ⟨n, m, hcalls, -⟩ := @asyncRun_replies _ _ _ _
    (List.replicate 3 (["PING".toList], .status "PONG".toList)) _ _ _ _ hrun (by decide) (by decide)
    hxs hframed fun s _ => List.take_prefix _ _
  exact ⟨ac, k, n, m, hrun, hcalls⟩

/-! ### Reads that return -/

theorem callWithin_returns {call : AsyncCall} (h : call.Regular) (ac : AsyncContext) :
    ∃ ac', callWithin ac call = some ac' := by
  cases call with
  | command cb cmd =>
    have hregular : asyncKind cmd = some .regular := h
    rw [callWithin, redisAsyncCommand, hregular]
    split_ifs
    · exact ⟨ac, rfl⟩
    · exact ⟨_, rfl⟩
  | disconnect => exact ⟨_, rfl⟩
  | free => exact ⟨_, rfl⟩
  | setConnectCallback => exact ⟨_, rfl⟩
  | setDisconnectCallback => exact ⟨_, rfl⟩

theorem foldlM_callWithin_returns {cs : List AsyncCall} (h : ∀ call ∈ cs, call.Regular)
    (ac : AsyncContext) : ∃ ac', cs.foldlM callWithin ac = some ac' := by
  induction cs generalizing ac with
  | nil => exact ⟨ac, rfl⟩
  | cons call cs ih =>
    obtain ⟨ac₁, hcall⟩ := callWithin_returns (h call List.mem_cons_self) ac
    obtain ⟨ac', hrest⟩ := ih (fun call hmem => h call (List.mem_cons_of_mem _ hmem)) ac₁
    exact ⟨ac', by rw [List.foldlM_cons, hcall]; exact hrest⟩

theorem redisRunCallback_returns (h : ∀ call ∈ ac.script.headD [], call.Regular)
    (cb : RedisCallback) (reply : Option RedisReply) :
    ∃ ac', redisRunCallback ac cb reply = some ac' := by
  rw [redisRunCallback]
  cases cb.fn with
  | none => exact ⟨ac, rfl⟩
  | some f =>
    obtain ⟨ac₁, hcalls⟩ := foldlM_callWithin_returns h
      { ac.record (.called cb reply) with inCallback := true, script := ac.script.tail }
    exact ⟨_, congrArg (Option.map _) hcalls⟩

/-- The state of a reader that has failed does not depend on the bytes. -/
theorem RedisReader.Shows.unread {r : RedisReader} {s : ReaderState} {b : Str} (h : r.Shows s b) :
    r.Shows s r.unread := by
  cases h with
  | failed herr hunread =>
    rw [hunread]
    exact .failed herr hunread []
  | reading h =>
    rw [h.unread]
    exact .reading h

/-- **The loop over the replies returns** if there are not more of them than callbacks. -/
theorem Fifo.processLoop_returns {n : ℕ} {cb : RedisCallback} {rs : List RedisReply}
    {s : ReaderState} {b : Str} (h : Fifo ac rs) (hobeys : ac.Obeys AsyncCall.Regular)
    (ha : Alive ac k) (hshows : ac.c.reader.Shows s b) (hfits : b.length ≤ 2 ^ 31)
    (hn : b.length < n)
    (hle : rs.length + (replyMachine.run s b).1.length ≤ (callbacks ac.log).length) :
    ∃ ac', processLoop n cb ac = some ac' := by
  induction n generalizing cb ac rs s b with
  | zero => exact absurd hn (Nat.not_lt_zero _)
  | succ n ih =>
    rw [YcsbC.processLoop]
    obtain ⟨ok, o, c, hreply⟩ : ∃ ok o c, redisGetReplyFromReader ac.c = (ok, o, c) :=
      ⟨_, _, _, rfl⟩
    obtain ⟨hobuf, hreader, herr, hok⟩ := redisGetReplyFromReader_keeps hreply
    have hnext := ha.of_obuf_eq hobuf
    have hfifo : Fifo { ac with c := c } rs := h.silent (by constructor <;> rfl)
    rw [hreply]
    cases ok with
    | false => exact redisAsyncDisconnectNow_returns hnext.wf hnext.inCallback (.inl (herr rfl))
    | true =>
      cases o with
      | none =>
        dsimp only
        split_ifs with hend
        · simp only [Bool.and_eq_true, decide_eq_true_eq] at hend
          exact redisAsyncDisconnectNow_returns hnext.wf hnext.inCallback
            (.inr ⟨hend.2, .inl hend.1.1⟩)
        · exact ⟨_, rfl⟩
        · exact ⟨_, rfl⟩
      | some reply =>
        obtain ⟨hfirst, hrest⟩ := hshows.getReply hfits
        rw [← (hok rfl).1] at hfirst
        rw [← hreader] at hrest
        cases hp : replyMachine.first s b with
        | mk o q =>
          rw [hp] at hfirst hrest
          obtain rfl : some reply = o := hfirst
          have hlt : q.2.length < b.length := StreamMachine.length_lt_of_first hp
          rw [StreamMachine.run_eq_first, hp] at hle
          simp only [List.length_cons] at hle
          obtain ⟨cb', rest, hreplies⟩ : ∃ cb' rest, ac.replies = cb' :: rest := by
            refine List.exists_cons_of_ne_nil fun hnil => ?_
            have hdrop := List.drop_eq_nil_iff.1 (h.replies.symm.trans hnil)
            omega
          have hof : YcsbC.callbackOf { ac with c := c } cb reply =
              some (some cb', { ac with c := c, replies := rest }) := by
            rw [YcsbC.callbackOf.eq_def]
            simp only [hreplies]
          obtain ⟨halive, -, -⟩ := hnext.callbackOf hof
          obtain ⟨ac₂, hcallback⟩ := redisRunCallback_returns
            (show ∀ call ∈ ({ ac with c := c, replies := rest } : AsyncContext).script.headD [],
              call.Regular from hobeys.head) cb' (some reply)
          obtain ⟨es, hes, -⟩ := redisRunCallback_extends halive.inCallback hcallback
          obtain ⟨hfifo₂, hobeys₂, -, hreader₂, hwf, hin⟩ :=
            Fifo.invariant.handOver hfifo hobeys hnext hof hcallback
          simp only [hof, hcallback, Option.bind_some]
          split_ifs with hfreeing
          · rw [Bool.and_eq_true] at hfreeing
            obtain ⟨-, ac', hfree, -⟩ := redisAsyncFreeNow_spec hwf hin (.inr hfreeing.2)
            exact ⟨ac', hfree⟩
          · have hmore : (callbacks ac.log).length ≤ (callbacks ac₂.log).length := by
              rw [hes.log, callbacks, callbacks, accepted_append, List.map_append,
                List.length_append]
              exact Nat.le_add_right _ _
            refine ih hfifo₂ hobeys₂ (halive.callback hcallback hfreeing) (s := q.1) (b := q.2) ?_
              (by omega) (by omega) ?_
            · rw [hreader₂]
              exact hrest
            · rw [List.length_append, List.length_singleton]
              omega

theorem Fifo.processCallbacks_returns {rs : List RedisReply} {r : RedisReader} {piece : Str}
    (h : Fifo ac rs) (hobeys : ac.Obeys AsyncCall.Regular) (ha : Alive ac k)
    (hfollows : Follows (replyTexts encode xs) ac k)
    (hframed : Framed encode xs) (hlength : (callbacks ac.log).length = xs.length)
    (hreceived : received ac.log = pieces ++ [piece])
    (hrs : RedisReader.repliesOf pieces .create = (rs, r)) (hreader : ac.c.reader = r.feed piece) :
    ∃ ac', redisProcessCallbacks ac = some ac' := by
  have hfits := hfollows.fits hframed
  have hreplies := hfollows.replies_eq hframed
  rw [hreceived] at hfits hreplies
  obtain ⟨hfits, hunread⟩ := (RedisReader.fits_append_singleton _ _ _).1 hfits
  have hshows := ((RedisReader.repliesOf_create hfits).2.feed piece).unread
  rw [repliesOf_append_singleton] at hreplies
  rw [hrs, ← hreader] at hshows hunread hreplies
  have hlast : ac.c.reader.replies.1 = _ := (hshows.repliesFor hunread (Nat.lt_succ_self _)).1
  refine h.processLoop_returns hobeys ha hshows hunread (Nat.lt_succ_self _) ?_
  have hcount : (rs ++ ac.c.reader.replies.1).length = _ := congrArg List.length hreplies
  rw [List.length_append, hlast, List.length_take, List.length_map] at hcount
  rw [hlength]
  omega

/-- **No assertion fails.** After any run with regular commands over a server that answers them,
`redisAsyncHandleRead` returns if its `read` does. -/
theorem asyncRun_handleRead
    (h : asyncRun respond (redisAsyncConnect script) ⟨[], 0, writes, reads⟩ inputs = some (ac, k))
    (hscript : ∀ cs ∈ script, ∀ call ∈ cs, call.Regular)
    (hinputs : ∀ input ∈ inputs, input.Regular)
    (hxs : (accepted ac.log).map Prod.snd = xs.map fun x => commandText x.1)
    (hframed : Framed encode xs) (hserves : Serves encode respond xs) (hfreed : ac.freed = false)
    (hconnected : ac.connected = true) {ok : Bool} {c : ByteContext}
    (hread : redisBufferRead respond ac.c k = some (ok, c, k')) (sock : Option Errno) :
    ∃ ac', redisAsyncHandleRead respond ac k sock = some (ac', k') := by
  obtain ⟨hsent, hfollows⟩ := asyncRun_follows h hxs hserves
  have hstart := alive_redisAsyncConnect script writes reads
  have halive : Alive ac k := by
    refine (hstart.asyncRun h).resolve_right fun hended => ?_
    rw [hended.freed] at hfreed
    cases hfreed
  rw [redisAsyncHandleRead, YcsbC.handleEvent, if_pos hconnected]
  simp only [hread]
  obtain ⟨-, hobuf, herr, hfeed⟩ := redisBufferRead_feeds hread
  cases ok with
  | false =>
    have hnext := halive.of_obuf_eq hobuf
    obtain ⟨ac', hdisconnect⟩ := redisAsyncDisconnectNow_returns hnext.wf hnext.inCallback
      (.inl fun hnone => Bool.false_ne_true (herr.1 hnone))
    exact ⟨ac', congrArg (Option.map fun ac => (ac, k')) hdisconnect⟩
  | true =>
    obtain ⟨hcount, hle, hfeed⟩ := hfeed rfl
    obtain ⟨rs, hfifo, hobeys, hrs⟩ | ⟨es, ac₀, o, rs, -, hends, -⟩ :=
      Fifo.holding h hscript hinputs
    · have hrecord : Fifo (ac.record (.received (readBytes respond k k'))) rs :=
        hfifo.record rfl rfl
      have hnext : Fifo { ac.record (.received (readBytes respond k k')) with
          c := c, reading := true } rs := hrecord.silent (by constructor <;> rfl)
      have hreceived : received (ac.log ++ [.received (readBytes respond k k')]) =
          received ac.log ++ [readBytes respond k k'] := received_append ..
      have hlength : (callbacks (ac.log ++ [.received (readBytes respond k k')])).length =
          xs.length :=
        length_callbacks (by rw [accepted_append]; simpa [accepted] using hxs)
      obtain ⟨ac', hprocess⟩ := hnext.processCallbacks_returns hobeys (halive.received hread)
        (hfollows.step hfreed (.inr ⟨hreceived, hcount, hle⟩) (hserves _ hsent)) hframed hlength
        hreceived hrs hfeed
      exact ⟨ac', congrArg (Option.map fun ac => (ac, k')) hprocess⟩
    · rw [hends.freed] at hfreed
      cases hfreed

/-- The second of two replies arrives in two pieces. -/
theorem asyncRun_handleRead_ping :
    ∃ ac k, asyncRun (fun s => (replyTexts (fun _ => "+PONG\r\n".toList)
          (List.replicate 2 (["PING".toList], .status "PONG".toList))).take (7 * (s.length / 14)))
        (redisAsyncConnect []) ⟨[], 0, [.ok 10, .ok 100], [.ok 9, .ok 4]⟩
        [.call (.command ⟨some 1, 7⟩ (commandText ["PING".toList])),
          .call (.command ⟨some 2, 7⟩ (commandText ["PING".toList])), .write none, .write none,
          .read none] = some (ac, k) ∧
      (redisAsyncHandleRead (fun s => (replyTexts (fun _ => "+PONG\r\n".toList)
        (List.replicate 2 (["PING".toList], .status "PONG".toList))).take (7 * (s.length / 14)))
        ac k none).isSome := by
  obtain ⟨⟨ac, k⟩, hrun, hstate⟩ := Option.map_eq_some_iff.1 (by decide :
    (asyncRun (fun s => (replyTexts (fun _ => "+PONG\r\n".toList)
        (List.replicate 2 (["PING".toList], .status "PONG".toList))).take (7 * (s.length / 14)))
      (redisAsyncConnect []) ⟨[], 0, [.ok 10, .ok 100], [.ok 9, .ok 4]⟩
      [.call (.command ⟨some 1, 7⟩ (commandText ["PING".toList])),
        .call (.command ⟨some 2, 7⟩ (commandText ["PING".toList])), .write none, .write none,
        .read none]).map (fun p => ((accepted p.1.log).map Prod.snd, p.1.freed, p.1.connected,
          (redisBufferRead (fun s => (replyTexts (fun _ => "+PONG\r\n".toList)
            (List.replicate 2 (["PING".toList], .status "PONG".toList))).take (7 * (s.length / 14)))
            p.1.c p.2).isSome)) =
      some (List.replicate 2 (commandText ["PING".toList]), false, true, true))
  obtain ⟨hxs, hfreed, hconnected, hread⟩ := by simpa only [Prod.mk.injEq] using hstate
  obtain ⟨⟨ok, c, k'⟩, hread⟩ := Option.isSome_iff_exists.1 hread
  have hframed : Framed (fun _ => "+PONG\r\n".toList)
      (List.replicate 2 (["PING".toList], .status "PONG".toList)) := by
    intro x hx
    rw [List.eq_of_mem_replicate hx]
    have hencodes : Encodes 0 (.status "PONG".toList) ('+' :: ("PONG".toList ++ crlf)) :=
      .status (by decide)
    exact ⟨hencodes, by decide⟩
  obtain ⟨ac', hac'⟩ := @asyncRun_handleRead _ _ _ _ _
    (List.replicate 2 (["PING".toList], .status "PONG".toList)) _ _ _ _ hrun (by decide) (by decide)
    hxs hframed (fun s _ => List.take_prefix _ _) hfreed hconnected _ _ hread none
  exact ⟨ac, k, hrun, by rw [hac']; rfl⟩

end Results

end YcsbC
