import YcsbC.Redis.Exchanges

/-!
# Calls that return

If the connection does not fail, that is if each `write` and each `read` moves a byte or is
interrupted, and there are enough of them, then every call of a client returns, and all replies are
delivered.

## Main definitions

* `Wire.Flows`: the connection moves as many bytes as there are.

## Main results

* `ByteContext.Abs.getReply_flows`: `redisGetReply` returns a reply.
* `runHiredis_delivers`: all calls of a client return, with all replies.
-/

namespace YcsbC

/-- A call that moves a byte. -/
def Moves : Except Errno ℕ → Bool
  | .ok n => 0 < n
  | .error _ => false

/-- A connection that moves `w` bytes to the server and `r` bytes back, if there are so many, and
does not fail. -/
structure Wire.Flows (k : Wire) (w r : ℕ) : Prop where
  writes : ∀ x ∈ k.writes, Moves x ∨ x = .error .eintr
  reads : ∀ x ∈ k.reads, Moves x ∨ x = .error .eintr
  sent_le : w ≤ k.writes.countP Moves + k.sent.length
  received_le : r ≤ k.reads.countP Moves + k.received

variable {c c' : ByteContext} {k k' : Wire} {w r n : ℕ}

theorem redisBufferWrite_flows (hk : k.Flows w r) (herr : c.err = none) (hobuf : c.obuf ≠ [])
    (hw : k.sent.length + c.obuf.length ≤ w) :
    ∃ c' k', redisBufferWrite c k = some (true, c', k') ∧ k'.Flows w r ∧
      k'.writes.length < k.writes.length := by
  have hpos := List.length_pos_of_ne_nil hobuf
  obtain ⟨sent, received, writes, reads⟩ := k
  obtain ⟨hwrites, hreads, hsent, hreceived⟩ := hk
  cases writes with
  | nil =>
    simp only [List.countP_nil] at hsent hw
    omega
  | cons x writes =>
    have hrest : ∀ y ∈ writes, Moves y ∨ y = .error .eintr := fun y hy =>
      hwrites y (List.mem_cons_of_mem x hy)
    have hlt : writes.length < (x :: writes).length := Nat.lt_succ_self _
    simp only [redisBufferWrite, herr, Option.isSome_none, Bool.false_eq_true, if_false, hobuf]
    rcases hwrites x List.mem_cons_self with hmoves | rfl
    · cases x with
      | error e => cases hmoves
      | ok m =>
        refine ⟨_, _, rfl, ⟨hrest, hreads, ?_, hreceived⟩, hlt⟩
        have hm : 0 < m := of_decide_eq_true hmoves
        simp only [List.countP_cons_of_pos hmoves] at hsent
        simp only [List.length_append, List.length_take]
        omega
    · refine ⟨c, _, rfl, ⟨hrest, hreads, ?_, hreceived⟩, hlt⟩
      simpa [List.countP_cons, Moves] using hsent

theorem writeLoop_flows (hk : k.Flows w r) (herr : c.err = none)
    (hw : k.sent.length + c.obuf.length ≤ w) (hn : k.writes.length < n) :
    ∃ c' k', writeLoop n c k = some (true, c', k') ∧ k'.Flows w r := by
  induction n generalizing c k with
  | zero => exact absurd hn (Nat.not_lt_zero _)
  | succ n ih =>
    rw [writeLoop]
    by_cases hobuf : c.obuf = []
    · have hwrite : redisBufferWrite c k = some (true, c, k) := by
        simp [redisBufferWrite, herr, hobuf]
      rw [hwrite]
      exact ⟨c, k, by simp only [hobuf, if_true], hk⟩
    · obtain ⟨c₁, k₁, hwrite, hk₁, hlt⟩ := redisBufferWrite_flows hk herr hobuf hw
      obtain ⟨-, -, -, herr₁, hbytes⟩ := redisBufferWrite_spec herr hwrite
      have hlength := congrArg List.length hbytes
      rw [List.length_append, List.length_append] at hlength
      rw [hwrite]
      simp only
      split_ifs
      · exact ⟨c₁, k₁, rfl, hk₁⟩
      · exact ih hk₁ herr₁ (by omega) (by omega)

section Reading

variable {encode : RedisReply → Str} {done sent : List Exchange} {respond : Str → Str}
  {a : RedisContext Exchange} {rd : RedisReader}

/-- As long as no reply is held, bytes are missing. -/
theorem Holds.received_lt (h : Holds encode rd n done [] sent) (hne : sent ≠ []) :
    n < (replyTexts encode (done ++ sent)).length := by
  obtain ⟨u, missing, -, -, rfl, htexts, hcomplete⟩ := h
  obtain ⟨x, xs, rfl⟩ := List.exists_cons_of_ne_nil hne
  rw [List.nil_append, List.map_cons, complete] at hcomplete
  split_ifs at hcomplete with hle
  rw [replyTexts_append, replyTexts_cons, List.length_append, List.length_append]
  omega

theorem ByteContext.Abs.bufferRead_flows (h : c.Abs encode k done ⟨[], sent, [], false⟩)
    (hanswers : respond k.sent = replyTexts encode (done ++ sent)) (hne : sent ≠ [])
    (hk : k.Flows w r) (hr : (replyTexts encode (done ++ sent)).length ≤ r) :
    ∃ c' k', redisBufferRead respond c k = some (true, c', k') ∧ k'.Flows w r ∧
      k'.reads.length < k.reads.length := by
  have hmissing := h.holds.received_lt hne
  have herr := h.err_eq_none rfl
  have hreader := h.holds.err
  obtain ⟨sent', received, writes, reads⟩ := k
  obtain ⟨hwrites, hreads, hsent, hreceived⟩ := hk
  replace hmissing : received < (replyTexts encode (done ++ sent)).length := hmissing
  cases reads with
  | nil =>
    simp only [List.countP_nil] at hreceived
    omega
  | cons x reads =>
    have hrest : ∀ y ∈ reads, Moves y ∨ y = .error .eintr := fun y hy =>
      hreads y (List.mem_cons_of_mem x hy)
    have hlt : reads.length < (x :: reads).length := Nat.lt_succ_self _
    rcases hreads x List.mem_cons_self with hmoves | rfl
    · cases x with
      | error e => cases hmoves
      | ok m =>
        obtain _ | m := m
        · cases hmoves
        simp only [redisBufferRead, herr, Option.isSome_none, Bool.false_eq_true, if_false,
          hanswers, hreader]
        generalize hbytes : ((replyTexts encode (done ++ sent)).drop received).take
          (min (m + 1) (1024 * 16)) = bytes
        have hpos : 0 < bytes.length := by
          rw [← hbytes, List.length_take, List.length_drop]
          exact lt_min (lt_min (Nat.succ_pos m) (by decide)) (Nat.sub_pos_of_lt hmissing)
        rw [if_neg (List.ne_nil_of_length_pos hpos)]
        refine ⟨_, _, rfl, ⟨hwrites, hrest, hsent, ?_⟩, hlt⟩
        simp only [List.countP_cons_of_pos hmoves] at hreceived
        show r ≤ reads.countP Moves + (received + bytes.length)
        omega
    · simp only [redisBufferRead, herr, Option.isSome_none, Bool.false_eq_true, if_false]
      refine ⟨c, _, rfl, ⟨hwrites, hrest, hsent, ?_⟩, hlt⟩
      simpa [List.countP_cons, Moves] using hreceived

/-- **The loop that reads.** -/
theorem ByteContext.Abs.readLoop_flows (h : c.Abs encode k done ⟨[], sent, [], false⟩)
    (hframed : Framed encode sent) (hanswers : respond k.sent = replyTexts encode (done ++ sent))
    (hne : sent ≠ []) (hk : k.Flows w r) (hr : (replyTexts encode (done ++ sent)).length ≤ r)
    (hn : k.reads.length < n) :
    ∃ reply c' k', YcsbC.readLoop respond n c k = some (some reply, c', k') ∧ k'.Flows w r := by
  induction n generalizing c k with
  | zero => exact absurd hn (Nat.not_lt_zero _)
  | succ n ih =>
    obtain ⟨c₁, k₁, hread, hk₁, hlt⟩ := h.bufferRead_flows hanswers hne hk hr
    obtain ⟨hsent, more, rest, rfl, habs⟩ := h.bufferRead hframed hanswers hread
    rw [YcsbC.readLoop, hread]
    simp only
    obtain _ | ⟨x, more⟩ := more
    · obtain ⟨hreader, habs'⟩ :=
        @fromReader_nil encode done c₁ k₁ ⟨[], rest, [], false⟩ habs hframed
      rw [hreader]
      exact ih habs' (by rw [hsent]; exact hanswers) hk₁ (by omega)
    · obtain ⟨hreader, -⟩ :=
        @fromReader encode done x c₁ k₁ ⟨[], rest, [], false⟩ more habs hframed
      rw [hreader]
      exact ⟨x.2, _, k₁, rfl, hk₁⟩

/-- **`redisGetReply` returns a reply.** -/
theorem ByteContext.Abs.getReply_flows (h : c.Abs encode k done a) (ha : a.err = false)
    (hne : a.pending ≠ []) (hframed : Framed encode a.pending)
    (hanswers : Answers encode respond (done ++ a.pending)) (hk : k.Flows w r)
    (hw : (commandTexts (done ++ a.pending)).length ≤ w)
    (hr : (replyTexts encode (done ++ a.pending)).length ≤ r) :
    ∃ reply c' k', redisGetReply respond c k = some (some reply, c', k') ∧ k'.Flows w r := by
  obtain ⟨reader, sent, obuf, err⟩ := a
  obtain rfl : err = false := ha
  simp only [RedisContext.pending, List.append_assoc] at hframed hanswers hw hr hne
  rw [redisGetReply]
  obtain _ | ⟨x, rest⟩ := reader
  · rw [List.nil_append] at hframed hanswers hw hr hne
    have hsent : Framed encode sent := fun y hy => hframed y (List.mem_append_left _ hy)
    obtain ⟨hreader, habs⟩ := @fromReader_nil encode done c k ⟨[], sent, obuf, false⟩ h hsent
    rw [hreader]
    generalize ({ c with reader := c.reader.getReply.2 } : ByteContext) = c₁ at habs
    simp only [habs.block, if_true]
    have hlength : k.sent.length + c₁.obuf.length ≤ w := by
      rw [habs.sent rfl, habs.obuf rfl, ← List.length_append, ← commandTexts_append,
        List.nil_append, List.append_assoc]
      exact hw
    obtain ⟨c₂, k₂, hwrite, hk₂⟩ :=
      writeLoop_flows hk (habs.err_eq_none rfl) hlength (Nat.lt_succ_self _)
    obtain ⟨hbytes, habs₂⟩ := habs.written hframed hwrite
    rw [hwrite]
    exact habs₂.readLoop_flows hframed (by rw [hbytes]; exact hanswers _ (List.prefix_refl _)) hne
      hk₂ hr (Nat.lt_succ_self _)
  · have hrest : Framed encode (x :: (rest ++ sent)) := fun y hy =>
      hframed y (by simp only [List.mem_cons, List.cons_append, List.mem_append] at hy ⊢; tauto)
    obtain ⟨hreader, -⟩ := @fromReader encode done x c k ⟨[], sent, obuf, false⟩ rest h hrest
    rw [hreader]
    exact ⟨x.2, _, k, rfl, hk⟩

/-! ### The calls of a client -/

variable {σ : Type} {server : RedisServer σ} {ops : List HiredisCall} {s s' : σ}
  {replies : List RedisReply}

theorem ByteContext.Abs.runHiredis_returns (h : c.Abs encode k done a) (ha : a.err = false)
    (hserve : server.serve ops (a.pending.map Prod.snd) s = some (replies, s'))
    (hframed : Framed encode (a.pending ++ server.exchanges ops s))
    (hanswers : Answers encode respond (done ++ (a.pending ++ server.exchanges ops s)))
    (hk : k.Flows w r)
    (hw : (commandTexts (done ++ (a.pending ++ server.exchanges ops s))).length ≤ w)
    (hr : (replyTexts encode (done ++ (a.pending ++ server.exchanges ops s))).length ≤ r) :
    ∃ results c' k', YcsbC.runHiredis respond ops c k = some (results, c', k') ∧ c'.err = none := by
  induction ops generalizing a done s c k replies with
  | nil => exact ⟨[], c, k, rfl, h.err_eq_none ha⟩
  | cons op ops ih =>
    have hget : ∀ {c : ByteContext} {a : RedisContext Exchange} {s : σ}, c.Abs encode k done a →
        a.err = false →
        server.serve (.getReply :: ops) (a.pending.map Prod.snd) s = some (replies, s') →
        Framed encode (a.pending ++ server.exchanges ops s) →
        Answers encode respond (done ++ (a.pending ++ server.exchanges ops s)) →
        (commandTexts (done ++ (a.pending ++ server.exchanges ops s))).length ≤ w →
        (replyTexts encode (done ++ (a.pending ++ server.exchanges ops s))).length ≤ r →
        ∃ results c' k', YcsbC.runHiredis respond (.getReply :: ops) c k = some (results, c', k') ∧
          c'.err = none := by
      intro c a s h ha hserve hframed hanswers hw hr
      have hne : a.pending ≠ [] := by
        intro hnil
        rw [hnil] at hserve
        cases hserve
      obtain ⟨reply, c₁, k₁, hcall, hk₁⟩ := h.getReply_flows ha hne hframed.left hanswers.left hk
        (by rw [← List.append_assoc, commandTexts_append, List.length_append] at hw; omega)
        (by rw [← List.append_assoc, replyTexts_append, List.length_append] at hr; omega)
      rcases h.getReply hframed.left hanswers.left hcall with ⟨x, a', hstep, -, habs⟩ | ⟨hnone, -⟩
      · rw [hstep.pending_eq] at hserve hframed hanswers hw hr
        obtain ⟨⟨replies', s''⟩, hserve', hp⟩ := Option.map_eq_some_iff.1 hserve
        cases hp
        have hqueue : done ++ (x :: a'.pending ++ server.exchanges ops s) =
            done ++ [x] ++ (a'.pending ++ server.exchanges ops s) := by simp
        rw [hqueue] at hanswers hw hr
        obtain ⟨results, c', k', hrun, herr⟩ := ih habs (hstep.err_eq.trans ha) hserve'
          (fun y hy => hframed y (List.mem_cons_of_mem x hy)) hanswers hk₁ hw hr
        refine ⟨some reply :: results, c', k', ?_, herr⟩
        rw [YcsbC.runHiredis, hcall, Option.bind_some, hrun]
        rfl
      · cases hnone
    cases op with
    | append formatted =>
      cases formatted with
      | ok argv ap =>
        rw [RedisContext.pending_append_exchanges] at hframed hanswers hw hr
        have habs := h.append (argv, (server.exec argv s).1)
        exact ih habs ha (by rw [RedisContext.replies_append]; exact hserve) hframed hanswers hk hw
          hr
      | formatErr => cases hserve
      | undefined => cases hserve
    | getReply => exact hget h ha hserve hframed hanswers hw hr
    | command formatted =>
      cases formatted with
      | ok argv ap =>
        rw [RedisServer.serve_command_eq, ← RedisContext.replies_append argv] at hserve
        have hsame : server.exchanges (.command (.ok argv ap) :: ops) s =
            server.exchanges (.append (.ok argv ap) :: ops) s := rfl
        rw [hsame, RedisContext.pending_append_exchanges] at hframed hanswers hw hr
        have habs := h.append (argv, (server.exec argv s).1)
        rw [runHiredis_command h.block]
        exact hget habs ha hserve hframed hanswers hw hr
      | formatErr => cases hserve
      | undefined => cases hserve

/-- **All replies are delivered.** Over a connection that does not fail, the calls of a client
return, and they get all replies of the server, in order. -/
theorem runHiredis_delivers (hserve : server.serve ops [] s = some (replies, s'))
    (hframed : Framed encode (server.exchanges ops s))
    (hanswers : Answers encode respond (server.exchanges ops s))
    {writes reads : List (Except Errno ℕ)}
    (hflows : Wire.Flows ⟨[], 0, writes, reads⟩ (commandTexts (server.exchanges ops s)).length
      (replyTexts encode (server.exchanges ops s)).length) :
    ∃ c' k', runHiredis respond ops .connect ⟨[], 0, writes, reads⟩ =
      some (replies.map some, c', k') := by
  have habs : ByteContext.connect.Abs encode ⟨[], 0, writes, reads⟩ [] .connect :=
    ByteContext.abs_connect
  obtain ⟨results, c', k', hrun, herr⟩ := habs.runHiredis_returns rfl hserve hframed hanswers hflows
    (le_refl _) (le_refl _)
  obtain ⟨n, -, hresults, hall⟩ := habs.runHiredis hserve hframed hanswers hrun
  obtain rfl := hall herr
  rw [List.take_length, Nat.sub_self, List.replicate_zero, List.append_nil] at hresults
  exact ⟨c', k', hresults ▸ hrun⟩

end Reading

/-- A pipeline of two commands. -/
theorem runHiredis_delivers_ping :
    ∃ c' k', runHiredis (fun b => (List.replicate (b.length / 14) "+OK\r\n".toList).flatten)
        [.append (.ok ["PING".toList] []), .command (.ok ["PING".toList] []), .getReply]
        .connect
        ⟨[], 0, .error .eintr :: List.replicate 28 (.ok 3), List.replicate 10 (.ok 7)⟩ =
      some ([some (.status "OK".toList), some (.status "OK".toList)], c', k') := by
  let server : RedisServer Unit := ⟨fun _ _ => (.status "OK".toList, ())⟩
  let ping : Exchange := (["PING".toList], .status "OK".toList)
  have hencodes : Encodes 0 (.status "OK".toList) ('+' :: ("OK".toList ++ crlf)) :=
    .status (by decide)
  refine @runHiredis_delivers (fun _ => "+OK\r\n".toList) _ _ server _ () ()
    [.status "OK".toList, .status "OK".toList] rfl ?_ ?_ _ _ ⟨?_, ?_, ?_, ?_⟩
  · intro x hx
    have hping : x ∈ [ping, ping] := hx
    have hx : x = ping := by simpa using hping
    rw [hx]
    exact ⟨hencodes, by decide⟩
  · intro ys hys
    have hmem : ys ∈ [ping, ping].inits := (List.mem_inits _ _).2 hys
    have hys : ys = [] ∨ ys = [ping] ∨ ys = [ping, ping] := by simpa using hmem
    rcases hys with rfl | rfl | rfl <;> decide
  · intro x hx
    rcases List.mem_cons.1 hx with rfl | hx
    · exact .inr rfl
    · obtain rfl := List.eq_of_mem_replicate hx
      exact .inl rfl
  · intro x hx
    obtain rfl := List.eq_of_mem_replicate hx
    exact .inl rfl
  · decide
  · decide

end YcsbC
