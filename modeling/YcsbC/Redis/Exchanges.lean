import YcsbC.Redis.Context

/-!
# Commands and their replies over a connection

However a connection cuts what is written and read into pieces, a context is the queue of
`YcsbC.Redis.Connection`: `redisGetReply` returns the reply to the oldest command whose reply has
not been taken.

## Main definitions

* `Exchange`: a command with its reply.
* `RedisReader.Reads`: a reader to which some bytes have been fed since it last returned a reply.
* `ByteContext.Abs`: a context and its connection stand for a queue.

## Main results

* `ByteContext.Abs.getReply`: `redisGetReply` on the queue.
* `runHiredis_eq_serve`: a client gets the replies of its server.
-/

namespace YcsbC

/-! ### The reader between two replies -/

namespace RedisReader

/-- Since it last returned a reply the reader has been fed with `u`. -/
def Reads (r : RedisReader) (u : Str) : Prop :=
  ∃ s b, r.Reading s b ∧ b.length ≤ u.length ∧
    ∀ x, replyMachine.first s (b ++ x) = replyMachine.first .idle (u ++ x)

variable {r : RedisReader} {u : Str}

theorem reads_create : create.Reads [] :=
  ⟨.idle, [], ⟨rfl, rfl, Nat.le_refl 0, rfl, nofun, rfl⟩, Nat.le_refl 0, fun _ => rfl⟩

theorem Reads.err (h : r.Reads u) : r.err = none := by
  obtain ⟨s, b, hread, -, -⟩ := h
  exact hread.err

theorem Reads.feed (h : r.Reads u) (bytes : Str) : (r.feed bytes).Reads (u ++ bytes) := by
  obtain ⟨s, b, hread, hlength, hfirst⟩ := h
  have hshows := Shows.feed (.reading hread) bytes
  have herr : (r.feed bytes).err = none := by
    rw [hshows.err_eq, ← (Shows.reading hread).err_eq, hread.err]
  cases hshows with
  | failed hsome =>
    rw [herr] at hsome
    cases hsome
  | reading hread' =>
    refine ⟨s, b ++ bytes, hread', ?_, fun x => ?_⟩
    · rw [List.length_append, List.length_append]
      omega
    · rw [List.append_assoc, hfirst, List.append_assoc]

theorem Reads.getReply_some (h : r.Reads u) (hfits : u.length ≤ 2 ^ 31) {reply : RedisReply}
    {u' : Str} (hfirst : replyMachine.first .idle u = (some reply, .idle, u')) :
    r.getReply.1 = some reply ∧ r.getReply.2.Reads u' := by
  obtain ⟨s, b, hread, hlength, hsame⟩ := h
  obtain ⟨hreply, hshows⟩ := Shows.getReply (.reading hread) (hlength.trans hfits)
  have hb := hsame []
  rw [List.append_nil, List.append_nil, hfirst] at hb
  rw [hb] at hreply hshows
  cases hshows with
  | reading hread' => exact ⟨hreply, .idle, u', hread', le_refl _, fun _ => rfl⟩

theorem Reads.getReply_none (h : r.Reads u) (hfits : u.length ≤ 2 ^ 31) {s : ReaderState}
    {b : Str} (hfirst : replyMachine.first .idle u = (none, s, b)) (hs : s.err = none) :
    r.getReply.1 = none ∧ r.getReply.2.Reads u := by
  obtain ⟨s₀, b₀, hread, hlength, hsame⟩ := h
  obtain ⟨hreply, hshows⟩ := Shows.getReply (.reading hread) (hlength.trans hfits)
  have hb := hsame []
  rw [List.append_nil, List.append_nil, hfirst] at hb
  rw [hb] at hreply hshows
  have hle := StreamMachine.length_first_le (M := replyMachine) .idle u
  rw [hfirst] at hle
  cases hshows with
  | failed => cases hs
  | reading hread' =>
    exact ⟨hreply, s, b, hread', hle, fun x =>
      (StreamMachine.first_append_of_none hfirst x).symm⟩

end RedisReader

/-! ### What a reader holds -/

/-- A command with its reply. -/
abbrev Exchange := List Str × RedisReply

/-- The bytes of the commands. -/
def commandTexts (xs : List Exchange) : Str := (xs.map fun x => commandText x.1).flatten

section Replies

variable (encode : RedisReply → Str)

/-- The bytes of the replies. -/
def replyTexts (xs : List Exchange) : Str := (xs.map fun x => encode x.2).flatten

/-- The texts of the replies are right, and none is too long for the reader. -/
def Framed (xs : List Exchange) : Prop :=
  ∀ x ∈ xs, Encodes 0 x.2 (encode x.2) ∧ (encode x.2).length + 1024 * 16 ≤ 2 ^ 31

/-- The answer to commands is their replies. -/
def Answers (respond : Str → Str) (xs : List Exchange) : Prop :=
  ∀ ys, ys <+: xs → respond (commandTexts ys) = replyTexts encode ys

/-- A reader that has been fed with `received` bytes, from which the replies in `done` have been
taken. It holds those in `reader` and may hold a part of the first in `sent`. -/
def Holds (r : RedisReader) (received : ℕ) (done reader sent : List Exchange) : Prop :=
  ∃ u missing, r.Reads u ∧ u.length ≤ 2 ^ 31 ∧
    received = (replyTexts encode done).length + u.length ∧
    replyTexts encode (reader ++ sent) = u ++ missing ∧
    complete ((reader ++ sent).map fun x => encode x.2) u.length = reader.length

end Replies

variable {encode : RedisReply → Str} {xs done reader sent : List Exchange} {x : Exchange}
  {r : RedisReader} {n : ℕ}

theorem replyTexts_append (xs ys : List Exchange) :
    replyTexts encode (xs ++ ys) = replyTexts encode xs ++ replyTexts encode ys := by
  rw [replyTexts, List.map_append, List.flatten_append]
  rfl

theorem replyTexts_cons (x : Exchange) (xs : List Exchange) :
    replyTexts encode (x :: xs) = encode x.2 ++ replyTexts encode xs := rfl

theorem commandTexts_append (xs ys : List Exchange) :
    commandTexts (xs ++ ys) = commandTexts xs ++ commandTexts ys := by
  rw [commandTexts, List.map_append, List.flatten_append]
  rfl

theorem commandTexts_singleton (x : Exchange) : commandTexts [x] = commandText x.1 :=
  List.append_nil _

theorem Holds.take (h : Holds encode r n done (x :: reader) sent)
    (hframed : Framed encode (x :: (reader ++ sent))) :
    r.getReply.1 = some x.2 ∧ Holds encode r.getReply.2 n (done ++ [x]) reader sent := by
  obtain ⟨u, missing, hreads, hfits, hn, htexts, hcomplete⟩ := h
  rw [List.cons_append, List.map_cons, complete] at hcomplete
  split_ifs at hcomplete with hle
  rw [List.cons_append, replyTexts_cons] at htexts
  obtain ⟨u', rfl⟩ : encode x.2 <+: u :=
    List.prefix_of_prefix_length_le (List.prefix_append _ _) (htexts ▸ List.prefix_append u _) hle
  rw [List.append_assoc, List.append_cancel_left_eq] at htexts
  rw [List.length_append] at hfits hn hcomplete
  rw [Nat.add_sub_cancel_left] at hcomplete
  have hfirst : replyMachine.first .idle (encode x.2 ++ u') = (some x.2, .idle, u') := by
    rw [StreamMachine.first_append (hframed x List.mem_cons_self).1.first]
    rfl
  obtain ⟨hreply, hreads'⟩ := hreads.getReply_some (by rw [List.length_append]; exact hfits) hfirst
  refine ⟨hreply, u', missing, hreads', by omega, ?_, htexts, Nat.succ.inj hcomplete⟩
  rw [replyTexts_append, List.length_append, hn]
  simp only [replyTexts, List.map_singleton, List.flatten_singleton]
  omega

/-- No reply is there. The next one is longer than what has been fed of it. -/
theorem Holds.lt (h : Holds encode r n done [] sent) (hframed : Framed encode sent) :
    ∃ u missing, r.Reads u ∧ u.length + 1024 * 16 ≤ 2 ^ 31 ∧
      n = (replyTexts encode done).length + u.length ∧ replyTexts encode sent = u ++ missing ∧
      complete (sent.map fun x => encode x.2) u.length = 0 ∧
      ∃ s b, replyMachine.first .idle u = (none, s, b) ∧ s.err = none := by
  obtain ⟨u, missing, hreads, -, hn, htexts, hcomplete⟩ := h
  rw [List.nil_append] at htexts hcomplete
  obtain _ | ⟨x, xs⟩ := sent
  · obtain ⟨rfl, -⟩ := List.append_eq_nil_iff.1 htexts.symm
    refine ⟨[], missing, hreads, by decide, hn, htexts, rfl, .idle, [], ?_, rfl⟩
    rw [StreamMachine.first_of_none StreamMachine.step_nil]
  · have hcomplete' := hcomplete
    rw [List.map_cons, complete] at hcomplete'
    split_ifs at hcomplete' with hle
    obtain ⟨hencodes, hlength⟩ := hframed x List.mem_cons_self
    have hprefix : u <+: encode x.2 :=
      List.prefix_of_prefix_length_le (htexts ▸ List.prefix_append u _)
        (replyTexts_cons x xs ▸ List.prefix_append _ _) (by omega)
    refine ⟨u, missing, hreads, by omega, hn, htexts, hcomplete, ?_⟩
    obtain ⟨t, ht⟩ := hprefix
    rw [← ht] at hencodes hle
    exact hencodes.first_front fun hnil => hle (by rw [hnil, List.append_nil])

theorem Holds.wait (h : Holds encode r n done [] sent) (hframed : Framed encode sent) :
    r.getReply.1 = none ∧ Holds encode r.getReply.2 n done [] sent := by
  obtain ⟨u, missing, hreads, hlength, hn, htexts, hcomplete, s, b, hfirst, hs⟩ := h.lt hframed
  obtain ⟨hreply, hreads'⟩ := hreads.getReply_none (by omega) hfirst hs
  exact ⟨hreply, u, missing, hreads', by omega, hn, htexts, hcomplete⟩

theorem complete_le (bs : List Str) (n : ℕ) : complete bs n ≤ bs.length := by
  induction bs generalizing n with
  | nil => exact le_refl 0
  | cons b bs ih =>
    rw [complete]
    split_ifs
    · exact Nat.succ_le_succ (ih _)
    · exact Nat.zero_le _

theorem Encodes.ne_nil {obj : RedisReply} {b : Str} (h : Encodes 0 obj b) : b ≠ [] := by
  cases h <;> exact List.cons_ne_nil _ _

/-- More commands have been sent. -/
theorem Holds.extend (h : Holds encode r n done [] sent) {more : List Exchange}
    (hframed : Framed encode (sent ++ more)) : Holds encode r n done [] (sent ++ more) := by
  obtain ⟨u, missing, hreads, hlength, hn, htexts, hcomplete⟩ := h
  rw [List.nil_append] at htexts hcomplete
  refine ⟨u, missing ++ replyTexts encode more, hreads, hlength, hn, ?_, ?_⟩
  · rw [List.nil_append, replyTexts_append, htexts, List.append_assoc]
  · rw [List.nil_append]
    obtain _ | ⟨x, xs⟩ := sent
    · obtain ⟨rfl, -⟩ := List.append_eq_nil_iff.1 htexts.symm
      obtain _ | ⟨y, ys⟩ := more
      · rfl
      · have hpos := List.length_pos_of_ne_nil (hframed y List.mem_cons_self).1.ne_nil
        exact if_neg (not_le.2 hpos)
    · rw [List.map_cons, complete] at hcomplete
      split_ifs at hcomplete with hle
      exact if_neg hle

/-- Bytes that arrive are those that are missing. -/
theorem Holds.feed (h : Holds encode r n done [] sent) (hframed : Framed encode sent) {m : ℕ}
    (hm : m ≤ 1024 * 16) {bytes : Str}
    (hbytes : bytes = ((replyTexts encode (done ++ sent)).drop n).take m) :
    ∃ more rest, sent = more ++ rest ∧
      Holds encode (r.feed bytes) (n + bytes.length) done more rest := by
  obtain ⟨u, missing, hreads, hlength, rfl, htexts, -, -⟩ := h.lt hframed
  have hmissing : bytes = missing.take m := by
    rw [hbytes, replyTexts_append, htexts, ← List.append_assoc, ← List.length_append,
      List.drop_left]
  have hle : bytes.length ≤ m := hmissing ▸ List.length_take_le _ _
  let count := complete (sent.map fun x => encode x.2) (u ++ bytes).length
  have hcount : count ≤ sent.length := by
    have hle := complete_le (sent.map fun x => encode x.2) (u ++ bytes).length
    rwa [List.length_map] at hle
  refine ⟨sent.take count, sent.drop count, (List.take_append_drop _ _).symm, u ++ bytes,
    missing.drop m, hreads.feed bytes, ?_, ?_, ?_, ?_⟩
  · rw [List.length_append]
    omega
  · rw [List.length_append]
    omega
  · rw [List.take_append_drop, htexts, List.append_assoc, hmissing, List.take_append_drop]
  · rw [List.take_append_drop, List.length_take_of_le hcount]

/-! ### The queue -/

/-- A context and its connection stand for a queue of exchanges, behind those in `done`, whose
replies have been taken. After an error the output buffer is not written any more. -/
structure ByteContext.Abs (encode : RedisReply → Str) (c : ByteContext) (k : Wire)
    (done : List Exchange) (a : RedisContext Exchange) : Prop where
  block : c.block = true
  err : a.err = c.err.isSome
  sent : a.err = false → k.sent = commandTexts (done ++ (a.reader ++ a.sent))
  obuf : a.err = false → c.obuf = commandTexts a.obuf
  holds : Holds encode c.reader k.received done a.reader a.sent

variable {c c' : ByteContext} {k k' : Wire} {a : RedisContext Exchange} {respond : Str → Str}

theorem ByteContext.abs_connect {writes reads : List (Except Errno ℕ)} :
    ByteContext.connect.Abs encode ⟨[], 0, writes, reads⟩ [] .connect where
  block := rfl
  err := rfl
  sent _ := rfl
  obuf _ := rfl
  holds := ⟨[], [], RedisReader.reads_create, by decide, rfl, rfl, rfl⟩

theorem Holds.err (h : Holds encode r n done reader sent) : r.err = none := by
  obtain ⟨u, -, hreads, -⟩ := h
  exact hreads.err

theorem redisGetReplyFromReader_eq (h : c.reader.getReply.2.err = none) :
    redisGetReplyFromReader c =
      (true, c.reader.getReply.1, { c with reader := c.reader.getReply.2 }) := by
  rw [redisGetReplyFromReader]
  simp only [h]

/-! ### Writing -/

theorem redisBufferWrite_spec {ok : Bool} (herr : c.err = none)
    (h : redisBufferWrite c k = some (ok, c', k')) :
    c'.block = c.block ∧ c'.reader = c.reader ∧ k'.received = k.received ∧
      if ok then c'.err = none ∧ k'.sent ++ c'.obuf = k.sent ++ c.obuf else c'.err.isSome := by
  rw [redisBufferWrite, herr] at h
  simp only [Option.isSome_none, Bool.false_eq_true, if_false] at h
  split_ifs at h with hempty
  · cases h
    exact ⟨rfl, rfl, rfl, herr, rfl⟩
  · cases hwrites : k.writes with
    | nil =>
      rw [hwrites] at h
      cases h
    | cons w writes =>
      rw [hwrites] at h
      cases w with
      | ok m =>
        cases h
        refine ⟨rfl, rfl, rfl, rfl, ?_⟩
        show k.sent ++ c.obuf.take m ++ c.obuf.drop m = _
        rw [List.append_assoc, List.take_append_drop]
      | error e =>
        simp only at h
        split_ifs at h
        · cases h
          exact ⟨rfl, rfl, rfl, herr, rfl⟩
        · cases h
          exact ⟨rfl, rfl, rfl, rfl⟩

/-- **The loop that writes.** -/
theorem writeLoop_spec {ok : Bool} (herr : c.err = none)
    (h : writeLoop n c k = some (ok, c', k')) :
    c'.block = c.block ∧ c'.reader = c.reader ∧ k'.received = k.received ∧
      if ok then c'.err = none ∧ c'.obuf = [] ∧ k'.sent = k.sent ++ c.obuf else c'.err.isSome := by
  induction n generalizing c k with
  | zero => cases h
  | succ n ih =>
    rw [writeLoop] at h
    cases hwrite : redisBufferWrite c k with
    | none =>
      rw [hwrite] at h
      cases h
    | some p =>
      obtain ⟨ok₁, c₁, k₁⟩ := p
      obtain ⟨hblock, hreader, hreceived, hok⟩ := redisBufferWrite_spec herr hwrite
      rw [hwrite] at h
      cases ok₁ with
      | false =>
        cases h
        exact ⟨hblock, hreader, hreceived, hok⟩
      | true =>
        obtain ⟨herr₁, hbytes⟩ := hok
        simp only at h
        split_ifs at h with hempty
        · cases h
          rw [hempty, List.append_nil] at hbytes
          exact ⟨hblock, hreader, hreceived, herr₁, hempty, hbytes⟩
        · obtain ⟨hblock', hreader', hreceived', hok'⟩ := ih herr₁ h
          rw [hbytes] at hok'
          exact ⟨hblock'.trans hblock, hreader'.trans hreader, hreceived'.trans hreceived, hok'⟩

/-! ### Reading -/

theorem ByteContext.Abs.err_eq_none (h : c.Abs encode k done a) (ha : a.err = false) :
    c.err = none := by
  have herr := h.err
  rw [ha] at herr
  exact Option.isSome_eq_false_iff.1 herr.symm |> Option.isNone_iff_eq_none.1

/-- After an error only the reader counts. -/
theorem ByteContext.Abs.fail (h : c.Abs encode k done a) {err : Option ContextError}
    (herr : err.isSome) {sent : Str} {writes reads : List (Except Errno ℕ)} {obuf : Str} :
    ({ c with err := err, obuf := obuf } : ByteContext).Abs encode
      ⟨sent, k.received, writes, reads⟩ done { a with err := true } where
  block := h.block
  err := herr.symm
  sent := nofun
  obuf := nofun
  holds := h.holds

theorem ByteContext.Abs.bufferRead (h : c.Abs encode k done ⟨[], sent, [], false⟩)
    (hframed : Framed encode sent) (hanswers : respond k.sent = replyTexts encode (done ++ sent))
    {ok : Bool} (hread : redisBufferRead respond c k = some (ok, c', k')) :
    if ok then
      k'.sent = k.sent ∧
        ∃ more rest, sent = more ++ rest ∧ c'.Abs encode k' done ⟨more, rest, [], false⟩
    else c'.Abs encode k' done ⟨[], sent, [], true⟩ := by
  have herr := h.err_eq_none rfl
  rw [redisBufferRead, herr] at hread
  simp only [Option.isSome_none, Bool.false_eq_true, if_false] at hread
  cases hreads : k.reads with
  | nil =>
    rw [hreads] at hread
    cases hread
  | cons w reads =>
    rw [hreads] at hread
    cases w with
    | error e =>
      simp only at hread
      split_ifs at hread
      · cases hread
        exact ⟨rfl, [], sent, rfl, h.block, h.err, h.sent, h.obuf, h.holds⟩
      · cases hread
        exact h.fail rfl
    | ok m =>
      obtain _ | m := m
      · cases hread
        exact h.fail rfl
      · simp only [hanswers] at hread
        split_ifs at hread with hempty
        rw [h.holds.err] at hread
        cases hread
        obtain ⟨more, rest, rfl, hholds⟩ := h.holds.feed hframed (min_le_right (m + 1) _) rfl
        exact ⟨rfl, more, rest, rfl, h.block, rfl, h.sent, h.obuf, hholds⟩

theorem ByteContext.Abs.fromReader {rest : List Exchange}
    (h : c.Abs encode k done { a with reader := x :: rest })
    (hframed : Framed encode (x :: (rest ++ a.sent))) :
    redisGetReplyFromReader c = (true, some x.2, { c with reader := c.reader.getReply.2 }) ∧
      ({ c with reader := c.reader.getReply.2 } : ByteContext).Abs encode k (done ++ [x])
        { a with reader := rest } := by
  obtain ⟨hreply, hholds⟩ := h.holds.take hframed
  refine ⟨?_, h.block, h.err, fun ha => ?_, h.obuf, hholds⟩
  · rw [redisGetReplyFromReader_eq hholds.err, hreply]
  · rw [h.sent ha, List.append_assoc]
    rfl

theorem ByteContext.Abs.fromReader_nil (h : c.Abs encode k done { a with reader := [] })
    (hframed : Framed encode a.sent) :
    redisGetReplyFromReader c = (true, none, { c with reader := c.reader.getReply.2 }) ∧
      ({ c with reader := c.reader.getReply.2 } : ByteContext).Abs encode k done
        { a with reader := [] } := by
  obtain ⟨hreply, hholds⟩ := h.holds.wait hframed
  refine ⟨?_, h.block, h.err, h.sent, h.obuf, hholds⟩
  rw [redisGetReplyFromReader_eq hholds.err, hreply]

/-- **The loop that reads.** It returns the first reply that arrives, maybe with others. -/
theorem ByteContext.Abs.readLoop (h : c.Abs encode k done ⟨[], sent, [], false⟩)
    (hframed : Framed encode sent) (hanswers : respond k.sent = replyTexts encode (done ++ sent))
    {reply : Option RedisReply} (hloop : YcsbC.readLoop respond n c k = some (reply, c', k')) :
    (∃ x more rest, reply = some x.2 ∧ sent = x :: (more ++ rest) ∧
        c'.Abs encode k' (done ++ [x]) ⟨more, rest, [], false⟩) ∨
      reply = none ∧ c'.Abs encode k' done ⟨[], sent, [], true⟩ := by
  induction n generalizing c k with
  | zero => cases hloop
  | succ n ih =>
    rw [YcsbC.readLoop] at hloop
    cases hread : redisBufferRead respond c k with
    | none =>
      rw [hread] at hloop
      cases hloop
    | some p =>
      obtain ⟨ok, c₁, k₁⟩ := p
      have hspec := h.bufferRead hframed hanswers hread
      rw [hread] at hloop
      cases ok with
      | false =>
        cases hloop
        exact .inr ⟨rfl, hspec⟩
      | true =>
        obtain ⟨hsent, more, rest, rfl, habs⟩ := hspec
        simp only at hloop
        obtain _ | ⟨x, more⟩ := more
        · obtain ⟨hreader, habs'⟩ :=
            @fromReader_nil encode done c₁ k₁ ⟨[], rest, [], false⟩ habs hframed
          rw [hreader] at hloop
          exact ih habs' (by rw [hsent]; exact hanswers) hloop
        · obtain ⟨hreader, habs'⟩ :=
            @fromReader encode done x c₁ k₁ ⟨[], rest, [], false⟩ more habs hframed
          rw [hreader] at hloop
          cases hloop
          exact .inl ⟨x, more, rest, rfl, rfl, habs'⟩

/-! ### The calls -/

theorem Framed.left {ys : List Exchange} (h : Framed encode (xs ++ ys)) : Framed encode xs :=
  fun x hx => h x (List.mem_append_left _ hx)

theorem Answers.left {respond : Str → Str} {ys zs : List Exchange}
    (h : Answers encode respond (xs ++ (ys ++ zs))) : Answers encode respond (xs ++ ys) := by
  intro front hfront
  refine h front (hfront.trans ?_)
  rw [← List.append_assoc]
  exact List.prefix_append _ _

theorem ByteContext.Abs.written {sent obuf : List Exchange}
    (h : c.Abs encode k done ⟨[], sent, obuf, false⟩) (hframed : Framed encode (sent ++ obuf))
    (hwrite : writeLoop n c k = some (true, c', k')) :
    k'.sent = commandTexts (done ++ (sent ++ obuf)) ∧
      c'.Abs encode k' done ⟨[], sent ++ obuf, [], false⟩ := by
  obtain ⟨hblock, hreader, hreceived, herr, hempty, hsent⟩ :=
    writeLoop_spec (h.err_eq_none rfl) hwrite
  have hbytes : k'.sent = commandTexts (done ++ (sent ++ obuf)) := by
    rw [hsent, h.sent rfl, h.obuf rfl, ← commandTexts_append, List.nil_append, List.append_assoc]
  have hholds := h.holds
  rw [← hreader, ← hreceived] at hholds
  exact ⟨hbytes, hblock.trans h.block, by rw [herr]; rfl, fun _ => hbytes, fun _ => hempty,
    hholds.extend hframed⟩

/-- A context that holds no reply writes its output buffer and reads. -/
theorem ByteContext.Abs.writeAndRead {sent obuf : List Exchange}
    (h : c.Abs encode k done ⟨[], sent, obuf, false⟩) (hframed : Framed encode (sent ++ obuf))
    (hanswers : Answers encode respond (done ++ (sent ++ obuf))) {reply : Option RedisReply}
    (hcall : (match writeLoop (k.writes.length + 1) c k with
      | none => none
      | some (false, c, k) => some (none, c, k)
      | some (true, c, k) => YcsbC.readLoop respond (k.reads.length + 1) c k) =
        some (reply, c', k')) :
    (∃ x more rest, reply = some x.2 ∧ sent ++ obuf = x :: (more ++ rest) ∧
        c'.Abs encode k' (done ++ [x]) ⟨more, rest, [], false⟩) ∨
      reply = none ∧ ∃ sent' obuf', Framed encode sent' ∧
        c'.Abs encode k' done ⟨[], sent', obuf', true⟩ := by
  cases hwrite : writeLoop (k.writes.length + 1) c k with
  | none =>
    rw [hwrite] at hcall
    cases hcall
  | some p =>
    obtain ⟨ok, c₁, k₁⟩ := p
    rw [hwrite] at hcall
    cases ok with
    | false =>
      obtain ⟨hblock, hreader, hreceived, hok⟩ := writeLoop_spec (h.err_eq_none rfl) hwrite
      have hholds := h.holds
      rw [← hreader, ← hreceived] at hholds
      cases hcall
      exact .inr ⟨rfl, sent, obuf, fun y hy => hframed y (List.mem_append_left _ hy),
        hblock.trans h.block, hok.symm, nofun, nofun, hholds⟩
    | true =>
      obtain ⟨hbytes, habs⟩ := h.written hframed hwrite
      have hrespond : respond k₁.sent = replyTexts encode (done ++ (sent ++ obuf)) := by
        rw [hbytes]
        exact hanswers _ (List.prefix_refl _)
      rcases habs.readLoop hframed hrespond hcall with
        ⟨x, more, rest, hreply, hqueue, habs'⟩ | ⟨hreply, habs'⟩
      · exact .inl ⟨x, more, rest, hreply, hqueue, habs'⟩
      · exact .inr ⟨hreply, _, _, hframed, habs'⟩

/-- After an error a context that holds no reply neither writes nor reads. -/
theorem ByteContext.Abs.getReply_of_err {sent obuf : List Exchange}
    (h : c.Abs encode k done ⟨[], sent, obuf, true⟩) (hframed : Framed encode sent) :
    ∃ c', redisGetReply respond c k = some (none, c', k) ∧
      c'.Abs encode k done ⟨[], sent, obuf, true⟩ := by
  obtain ⟨hreader, habs⟩ := @fromReader_nil encode done c k ⟨[], sent, obuf, true⟩ h hframed
  refine ⟨_, ?_, habs⟩
  have herr : c.err.isSome := h.err.symm
  have hblock : c.block = true := h.block
  rw [redisGetReply, hreader]
  simp only [hblock, if_true, writeLoop, redisBufferWrite, if_pos herr]

/-- **`redisGetReply` on the queue.** It returns the reply to the oldest command whose reply has not
been taken, or else, when no reply is held, there is an error afterwards. -/
theorem ByteContext.Abs.getReply (h : c.Abs encode k done a) (hframed : Framed encode a.pending)
    (hanswers : Answers encode respond (done ++ a.pending)) {reply : Option RedisReply}
    (hcall : redisGetReply respond c k = some (reply, c', k')) :
    (∃ x a', a.GetReply x a' ∧ reply = some x.2 ∧ c'.Abs encode k' (done ++ [x]) a') ∨
      reply = none ∧ a.reader = [] ∧ ∃ sent' obuf', Framed encode sent' ∧
        c'.Abs encode k' done ⟨[], sent', obuf', true⟩ := by
  obtain ⟨reader, sent, obuf, err⟩ := a
  simp only [RedisContext.pending, List.append_assoc] at hframed hanswers
  obtain _ | ⟨x, rest⟩ := reader
  · have hsent : Framed encode sent := fun y hy => hframed y (by simp [hy])
    cases err with
    | true =>
      obtain ⟨c₁, hfail, habs⟩ := h.getReply_of_err hsent
      rw [hfail] at hcall
      cases hcall
      exact .inr ⟨rfl, rfl, sent, obuf, hsent, habs⟩
    | false =>
      obtain ⟨hreader, habs⟩ := @fromReader_nil encode done c k ⟨[], sent, obuf, false⟩ h hsent
      rw [redisGetReply, hreader] at hcall
      generalize ({ c with reader := c.reader.getReply.2 } : ByteContext) = c₁ at habs hcall
      simp only [habs.block, if_true] at hcall
      rcases habs.writeAndRead hframed hanswers hcall with
        ⟨x, more, rest, hreply, hqueue, habs'⟩ | ⟨hreply, sent', obuf', hframed', habs'⟩
      · exact .inl ⟨x, _, .read rfl rfl hqueue, hreply, habs'⟩
      · exact .inr ⟨hreply, rfl, sent', obuf', hframed', habs'⟩
  · have hrest : Framed encode (x :: (rest ++ sent)) := fun y hy =>
      hframed y (by simp only [List.mem_cons, List.cons_append, List.mem_append] at hy ⊢; tauto)
    obtain ⟨hreader, habs⟩ := @fromReader encode done x c k ⟨[], sent, obuf, err⟩ rest h hrest
    rw [redisGetReply, hreader] at hcall
    cases hcall
    exact .inl ⟨x, _, .reader rfl, rfl, habs⟩

theorem ByteContext.Abs.append (h : c.Abs encode k done a) (x : Exchange) :
    ({ c with obuf := c.obuf ++ commandText x.1 } : ByteContext).Abs encode k done
      (a.append x true) where
  block := h.block
  err := h.err
  sent := h.sent
  obuf ha := by
    show c.obuf ++ commandText x.1 = commandTexts (a.obuf ++ [x])
    rw [h.obuf ha, commandTexts_append, commandTexts_singleton]
  holds := h.holds

/-! ### A client and its server -/

section Server

variable {σ : Type} {server : RedisServer σ} {ops : List HiredisCall} {s s' : σ}
  {replies pending : List RedisReply} {results : List (Option RedisReply)}

/-- The commands of some calls, with the replies of the server. -/
def RedisServer.exchanges (server : RedisServer σ) : List HiredisCall → σ → List Exchange
  | [], _ => []
  | .append (.ok argv _) :: ops, s =>
    (argv, (server.exec argv s).1) :: server.exchanges ops (server.exec argv s).2
  | .command (.ok argv _) :: ops, s =>
    (argv, (server.exec argv s).1) :: server.exchanges ops (server.exec argv s).2
  | _ :: ops, s => server.exchanges ops s

theorem RedisServer.serve_command_eq (argv : List Str) (ap : List VaArg) :
    server.serve (.command (.ok argv ap) :: ops) pending s =
      server.serve (.getReply :: ops) (pending ++ [(server.exec argv s).1])
        (server.exec argv s).2 := by
  cases pending <;> rfl

theorem runHiredis_command (hblock : c.block = true) (argv : List Str) (ap : List VaArg) :
    runHiredis respond (.command (.ok argv ap) :: ops) c k =
      runHiredis respond (.getReply :: ops)
        { c with obuf := c.obuf ++ commandText argv } k := by
  simp only [runHiredis, redisCommand, redisAppendCommand, hblock, if_true]

/-- After an error no call gets a reply any more. -/
theorem runHiredis_of_err {sent obuf : List Exchange}
    (h : c.Abs encode k done ⟨[], sent, obuf, true⟩) (hframed : Framed encode sent)
    (hserve : server.serve ops pending s = some (replies, s'))
    (hrun : runHiredis respond ops c k = some (results, c', k')) :
    results = List.replicate replies.length none ∧ c'.err ≠ none := by
  induction ops generalizing pending s c obuf replies results with
  | nil =>
    cases hserve
    cases hrun
    refine ⟨rfl, fun hnone => ?_⟩
    have herr := h.err
    rw [hnone] at herr
    cases herr
  | cons op ops ih =>
    have hget : ∀ {c : ByteContext} {obuf : List Exchange} {pending : List RedisReply} {s : σ},
        c.Abs encode k done ⟨[], sent, obuf, true⟩ →
        server.serve (.getReply :: ops) pending s = some (replies, s') →
        runHiredis respond (.getReply :: ops) c k = some (results, c', k') →
        results = List.replicate replies.length none ∧ c'.err ≠ none := by
      intro c obuf pending s h hserve hrun
      obtain _ | ⟨reply, pending⟩ := pending
      · cases hserve
      obtain ⟨⟨replies', s''⟩, hserve', hp⟩ := Option.map_eq_some_iff.1 hserve
      obtain ⟨c₁, hfail, habs⟩ : ∃ c₁, redisGetReply respond c k = some (none, c₁, k) ∧ _ :=
        h.getReply_of_err hframed
      rw [runHiredis, hfail, Option.bind_some] at hrun
      obtain ⟨⟨results', q⟩, hrun', hq⟩ := Option.map_eq_some_iff.1 hrun
      cases hp
      cases hq
      obtain ⟨hresults, herr⟩ := ih habs hserve' hrun'
      exact ⟨by rw [hresults]; rfl, herr⟩
    match op with
    | .append (.ok argv ap) => exact ih (h.append (argv, .nil)) hserve hrun
    | .append .formatErr => cases hserve
    | .append .undefined => cases hserve
    | .getReply => exact hget h hserve hrun
    | .command (.ok argv ap) =>
      rw [RedisServer.serve_command_eq] at hserve
      rw [runHiredis_command h.block] at hrun
      exact hget (h.append (argv, .nil)) hserve hrun
    | .command .formatErr => cases hserve
    | .command .undefined => cases hserve

/-- The replies that some calls get: those of the server up to an error, and none afterwards. -/
def GetsReplies (results : List (Option RedisReply)) (replies : List RedisReply)
    (err : Option ContextError) : Prop :=
  ∃ n ≤ replies.length, results = (replies.take n).map some ++
    List.replicate (replies.length - n) none ∧ (err = none → n = replies.length)

theorem GetsReplies.cons {err : Option ContextError} (h : GetsReplies results replies err)
    (reply : RedisReply) : GetsReplies (some reply :: results) (reply :: replies) err := by
  obtain ⟨n, hn, hresults, hall⟩ := h
  refine ⟨n + 1, Nat.succ_le_succ hn, ?_, fun herr => congrArg _ (hall herr)⟩
  rw [hresults, List.length_cons, Nat.succ_sub_succ]
  rfl

/-- A command joins the queue, and its reply those that are pending. -/
theorem RedisContext.pending_append_exchanges (argv : List Str) (ap : List VaArg) :
    a.pending ++ server.exchanges (.append (.ok argv ap) :: ops) s =
      (a.append (argv, (server.exec argv s).1) true).pending ++
        server.exchanges ops (server.exec argv s).2 := by
  rw [RedisContext.pending_append, List.append_assoc]
  rfl

theorem RedisContext.replies_append (argv : List Str) (reply : RedisReply) :
    (a.append (argv, reply) true).pending.map Prod.snd = a.pending.map Prod.snd ++ [reply] := by
  rw [RedisContext.pending_append, List.map_append]
  rfl

/-- The calls of a client on the queue. -/
theorem ByteContext.Abs.runHiredis (h : c.Abs encode k done a)
    (hserve : server.serve ops (a.pending.map Prod.snd) s = some (replies, s'))
    (hframed : Framed encode (a.pending ++ server.exchanges ops s))
    (hanswers : Answers encode respond (done ++ (a.pending ++ server.exchanges ops s)))
    (hrun : YcsbC.runHiredis respond ops c k = some (results, c', k')) :
    GetsReplies results replies c'.err := by
  induction ops generalizing a done s c k replies results with
  | nil =>
    cases hserve
    cases hrun
    exact ⟨0, le_refl 0, rfl, fun _ => rfl⟩
  | cons op ops ih =>
    have hget : ∀ {c : ByteContext} {a : RedisContext Exchange} {s : σ}, c.Abs encode k done a →
        server.serve (.getReply :: ops) (a.pending.map Prod.snd) s = some (replies, s') →
        Framed encode (a.pending ++ server.exchanges ops s) →
        Answers encode respond (done ++ (a.pending ++ server.exchanges ops s)) →
        YcsbC.runHiredis respond (.getReply :: ops) c k = some (results, c', k') →
        GetsReplies results replies c'.err := by
      intro c a s h hserve hframed hanswers hrun
      obtain ⟨p, hcall, hrun⟩ := Option.bind_eq_some_iff.1 hrun
      obtain ⟨reply, c₁, k₁⟩ := p
      obtain ⟨⟨results', q⟩, hrun', hq⟩ := Option.map_eq_some_iff.1 hrun
      cases hq
      rcases h.getReply hframed.left hanswers.left hcall with
        ⟨x, a', hstep, rfl, habs⟩ | ⟨rfl, -, sent', obuf', hframed', habs⟩
      · rw [hstep.pending_eq] at hserve hframed hanswers
        obtain ⟨⟨replies', s''⟩, hserve', hp⟩ := Option.map_eq_some_iff.1 hserve
        cases hp
        refine (ih habs hserve' (fun y hy => hframed y (List.mem_cons_of_mem x hy)) ?_ hrun').cons _
        rw [List.append_assoc]
        exact hanswers
      · generalize a.pending.map Prod.snd = pending at hserve
        obtain _ | ⟨reply, pending⟩ := pending
        · cases hserve
        obtain ⟨⟨replies', s''⟩, hserve', hp⟩ := Option.map_eq_some_iff.1 hserve
        cases hp
        obtain ⟨hresults, herr⟩ := runHiredis_of_err habs hframed' hserve' hrun'
        exact ⟨0, Nat.zero_le _, by rw [hresults]; rfl, fun hnone => absurd hnone herr⟩
    match op with
    | .append (.ok argv ap) =>
      rw [RedisContext.pending_append_exchanges] at hframed hanswers
      exact ih (h.append _) (by rw [RedisContext.replies_append]; exact hserve) hframed
        hanswers hrun
    | .append .formatErr => cases hserve
    | .append .undefined => cases hserve
    | .getReply => exact hget h hserve hframed hanswers hrun
    | .command (.ok argv ap) =>
      rw [RedisServer.serve_command_eq, ← RedisContext.replies_append argv] at hserve
      rw [runHiredis_command h.block] at hrun
      have hsame : server.exchanges (.command (.ok argv ap) :: ops) s =
          server.exchanges (.append (.ok argv ap) :: ops) s := rfl
      rw [hsame, RedisContext.pending_append_exchanges] at hframed hanswers
      exact hget (h.append _) hserve hframed hanswers hrun
    | .command .formatErr => cases hserve
    | .command .undefined => cases hserve

/-- **A client and its server.** Whatever pieces the connection cuts the bytes into, the calls of a
client get the replies that the server makes to its commands, in order; up to an error, after which
they get none. -/
theorem runHiredis_eq_serve (hserve : server.serve ops [] s = some (replies, s'))
    (hframed : Framed encode (server.exchanges ops s))
    (hanswers : Answers encode respond (server.exchanges ops s))
    {writes reads : List (Except Errno ℕ)}
    (hrun : runHiredis respond ops .connect ⟨[], 0, writes, reads⟩ = some (results, c', k')) :
    GetsReplies results replies c'.err :=
  ByteContext.abs_connect.runHiredis hserve hframed hanswers hrun

end Server

/-- Two commands, which are written in three pieces and whose replies arrive in two. -/
theorem runHiredis_eq_serve_ping :
    ∃ results c' k', runHiredis
        (fun b => (List.replicate (b.length / 14) "+OK\r\n".toList).flatten)
        [.append (.ok ["PING".toList] []), .append (.ok ["PING".toList] []), .getReply, .getReply]
        .connect ⟨[], 0, [.ok 3, .error .eintr, .ok 20, .ok 9], [.ok 7, .ok 3]⟩ =
          some (results, c', k') ∧
      GetsReplies results [.status "OK".toList, .status "OK".toList] c'.err := by
  obtain ⟨⟨results, c', k'⟩, hrun⟩ := Option.isSome_iff_exists.1 (by decide : (runHiredis
    (fun b => (List.replicate (b.length / 14) "+OK\r\n".toList).flatten)
    [.append (.ok ["PING".toList] []), .append (.ok ["PING".toList] []), .getReply, .getReply]
    .connect ⟨[], 0, [.ok 3, .error .eintr, .ok 20, .ok 9], [.ok 7, .ok 3]⟩).isSome)
  let server : RedisServer Unit := ⟨fun _ _ => (.status "OK".toList, ())⟩
  let ping : Exchange := (["PING".toList], .status "OK".toList)
  have hencodes : Encodes 0 (.status "OK".toList) ('+' :: ("OK".toList ++ crlf)) :=
    .status (by decide)
  refine ⟨results, c', k', hrun, @runHiredis_eq_serve (fun _ => "+OK\r\n".toList) _ _ _ _ server
    _ () () _ _ rfl ?_ ?_ _ _ hrun⟩
  · intro x hx
    have hping : x ∈ [ping, ping] := hx
    have hx : x = ping := by simpa using hping
    rw [hx]
    exact ⟨hencodes, by decide⟩
  · intro ys hys
    have hmem : ys ∈ [ping, ping].inits := (List.mem_inits _ _).2 hys
    have hys : ys = [] ∨ ys = [ping] ∨ ys = [ping, ping] := by simpa using hmem
    rcases hys with rfl | rfl | rfl <;> decide

end YcsbC
