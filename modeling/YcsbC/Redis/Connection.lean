import Mathlib.Logic.Function.Basic
import Mathlib.Tactic.Common
import YcsbC.Foundation.Transitions
import YcsbC.Redis.Arguments

/-!
# The connection that all threads share

`main` gives one `RedisDB` to all threads, so they share one `redisContext`
(`redis/hiredis/hiredis.c`, lines 794 to 1023). A `Read` sends its command and takes a reply in one
call of hiredis. Every other operation goes through `RedisClient::Command`, which appends its
command, and a `WAIT` if there are slaves, in calls of their own and takes the replies in further
calls.

Each call of hiredis is one atomic step, and the server answers in the order of the commands; how
many answers arrive at once is open. Who appended a command stands for the command, and for its
reply.

## Main definitions

* `RedisContext`: the output buffer, the commands under way, and the reader.
* `RedisClient.command`, `RedisCall.hiredis`: the calls of hiredis that an operation makes.
* `RedisSystem`, `RedisSystem.Step`: the threads on their context.

## Main results

* `RedisContext.GetReply.pending_eq`: the context is a queue.
* `RedisSystem.ownReplies_of_runs`: whoever waits while another thread's command is unanswered takes
  its own replies only.
-/

namespace YcsbC

/-! ### The context -/

/-- A `redisContext`: the replies that the reader holds, the commands that have been written and
whose replies have not been read, the commands in the output buffer, and the error flag. -/
structure RedisContext (α : Type) where
  reader : List α
  sent : List α
  obuf : List α
  err : Bool

/-- Whether a formatted command is appended. With undefined behaviour it may be or not. -/
inductive Formatted.Yields : Formatted → Bool → Prop
  | ok (argv : List Str) (ap : List VaArg) : Yields (.ok argv ap) true
  | formatErr : Yields .formatErr false
  | undefined (ok : Bool) : Yields .undefined ok

namespace RedisContext

variable {α : Type} {a t : α} {f : Formatted} {c c' : RedisContext α}

/-- A new context. -/
def connect : RedisContext α := ⟨[], [], [], false⟩

/-- The commands whose replies have not been taken, the oldest first. -/
def pending (c : RedisContext α) : List α := c.reader ++ c.sent ++ c.obuf

/-- `redisAppendCommand`, where the format is right or not. -/
def append (c : RedisContext α) (t : α) (ok : Bool) : RedisContext α :=
  if ok then { c with obuf := c.obuf ++ [t] } else { c with err := true }

/-- `redisGetReply` returns the reply to the command of `a`: one that the reader holds, or else,
after the output buffer has been written, the first that arrives, maybe with others. -/
inductive GetReply : RedisContext α → α → RedisContext α → Prop
  | reader {c : RedisContext α} {a : α} {rest : List α} (h : c.reader = a :: rest) :
      GetReply c a { c with reader := rest }
  | read {c : RedisContext α} {a : α} {more rest : List α} (hreader : c.reader = [])
      (herr : c.err = false) (h : c.sent ++ c.obuf = a :: (more ++ rest)) :
      GetReply c a { c with reader := more, sent := rest, obuf := [] }

/-- `redisGetReply` returns `REDIS_ERR`. -/
def Fails (c : RedisContext α) : Prop := c.reader = [] ∧ c.err = true

/-- `redisCommand` and `redisCommandArgv`, with the reply if there is one. -/
inductive Command (t : α) (f : Formatted) (c : RedisContext α) :
    Option α → RedisContext α → Prop
  | reply {a : α} {c' : RedisContext α} (hf : f.Yields true) (h : (c.append t true).GetReply a c') :
      Command t f c (some a) c'
  | fail (hf : f.Yields true) (h : (c.append t true).Fails) : Command t f c none (c.append t true)
  | formatErr (hf : f.Yields false) : Command t f c none (c.append t false)

theorem pending_append : (c.append t true).pending = c.pending ++ [t] := by
  simp [append, pending]

/-- The reply that is taken is that to the oldest command. -/
theorem GetReply.pending_eq (h : c.GetReply a c') : c.pending = a :: c'.pending := by
  cases h with
  | reader h => simp [pending, h]
  | read hreader _ h =>
    rw [pending, hreader, List.nil_append, h]
    simp [pending]

theorem GetReply.err_eq (h : c.GetReply a c') : c'.err = c.err := by
  cases h <;> rfl

/-- After an error only what the reader holds can be taken. -/
theorem GetReply.err_eq_false (h : c.GetReply a c') (herr : c.err = true → c.reader = []) :
    c.err = false := by
  cases h with
  | reader h =>
    by_contra hne
    rw [herr (eq_true_of_ne_false hne)] at h
    cases h
  | read _ hfalse _ => exact hfalse

end RedisContext

/-! ### The calls of hiredis -/

/-- A call of hiredis with a formatted command. -/
inductive HiredisCall where
  | append (f : Formatted)
  | getReply
  | command (f : Formatted)

/-- A call of the `DB` interface. -/
inductive RedisCall where
  | read (key : Str) (fields : Option (List Str))
  | insert (key : Str) (values : List (Str × Str))
  | update (key : Str) (values : List (Str × Str))
  | delete (key : Str)

section Calls

variable (vprintf : Str → VaArg → Str) (slaves : ℤ)

/-- `RedisClient::Command`. -/
def RedisClient.command (cmd : Str) : List HiredisCall :=
  .append (redisvFormatCommand vprintf cmd []) ::
    if slaves ≠ 0 then
      [.append (redisvFormatCommand vprintf "WAIT %d %d".toList [.int slaves, .int 0]),
        .getReply, .getReply]
    else [.getReply]

namespace RedisCall

/-- The command that `RedisClient::Command` is given, if the call makes use of it. -/
def text : RedisCall → Option Str
  | read _ _ => none
  | insert key values => some (RedisDB.updateCommand key values)
  | update key values => some (RedisDB.updateCommand key values)
  | delete key => some (RedisDB.deleteCommand key)

/-- The assertions of `Update`: no field name and no value has a space in it. -/
def Asserted : RedisCall → Prop
  | insert _ values => ∀ p ∈ values, ' ' ∉ p.1 ∧ ' ' ∉ p.2
  | update _ values => ∀ p ∈ values, ' ' ∉ p.1 ∧ ' ' ∉ p.2
  | _ => True

/-- The calls of hiredis, if the assertions hold. -/
def hiredis : RedisCall → List HiredisCall
  | read key (some fields) => [.command (.ok ("HMGET".toList :: key :: fields) [])]
  | read key none => [.command (redisvFormatCommand vprintf "HGETALL %s".toList [.str key])]
  | insert key values => RedisClient.command vprintf slaves (RedisDB.updateCommand key values)
  | update key values => RedisClient.command vprintf slaves (RedisDB.updateCommand key values)
  | delete key => RedisClient.command vprintf slaves (RedisDB.deleteCommand key)

/-- A call is a `Read`, with one call of hiredis, or it goes through `Command`. -/
theorem hiredis_cases (c : RedisCall) :
    (c.text = none ∧ ∃ argv ap, c.hiredis vprintf slaves = [.command (.ok argv ap)]) ∨
      ∃ cmd, c.text = some cmd ∧
        c.hiredis vprintf slaves = RedisClient.command vprintf slaves cmd := by
  match c with
  | read key (some fields) => exact .inl ⟨rfl, _, _, rfl⟩
  | read key none => exact .inl ⟨rfl, ["HGETALL".toList, cStr key], [], rfl⟩
  | insert key values => exact .inr ⟨_, rfl, rfl⟩
  | update key values => exact .inr ⟨_, rfl, rfl⟩
  | delete key => exact .inr ⟨_, rfl, rfl⟩

end RedisCall

/-- The calls of hiredis that a thread makes for its calls, each with the number of the call. -/
def hiredisCalls : ℕ → List RedisCall → List (ℕ × HiredisCall)
  | _, [] => []
  | n, c :: calls => (c.hiredis vprintf slaves).map (n, ·) ++ hiredisCalls (n + 1) calls

end Calls

/-! ### The threads -/

/-- The context and the process; each thread with the calls of hiredis that it has before it. A
reply that has been taken is kept with the call that took it and the call whose command it answers.
-/
structure RedisSystem (ι : Type) where
  context : RedisContext (ι × ℕ)
  thread : ι → List (ℕ × HiredisCall)
  exited : Bool
  taken : List ((ι × ℕ) × (ι × ℕ))

namespace RedisSystem

variable {ι : Type} [DecidableEq ι] {s s' : RedisSystem ι} {i : ι}

/-- The thread `i` has made a call of hiredis for its call `n`, and it may have taken a reply. -/
def advance (s : RedisSystem ι) (i : ι) (n : ℕ) (ops : List (ℕ × HiredisCall))
    (c : RedisContext (ι × ℕ)) (r : Option (ι × ℕ)) : RedisSystem ι where
  context := c
  thread := Function.update s.thread i ops
  exited := s.exited
  taken := s.taken ++ r.toList.map fun a => ((i, n), a)

section Advance

variable {n : ℕ} {ops : List (ℕ × HiredisCall)} {c : RedisContext (ι × ℕ)} {r : Option (ι × ℕ)}

@[simp] theorem context_advance : (s.advance i n ops c r).context = c := rfl

@[simp] theorem exited_advance : (s.advance i n ops c r).exited = s.exited := rfl

@[simp] theorem thread_advance_self : (s.advance i n ops c r).thread i = ops :=
  Function.update_self ..

theorem thread_advance_of_ne {j : ι} (hj : j ≠ i) :
    (s.advance i n ops c r).thread j = s.thread j :=
  Function.update_of_ne hj ..

end Advance

/-- One call of hiredis by one thread. When `redisGetReply` fails, `HandleError` ends the process.
-/
inductive Step : RedisSystem ι → ι → RedisSystem ι → Prop
  | append {s : RedisSystem ι} {i : ι} {n : ℕ} {f : Formatted} {ok : Bool}
      {ops : List (ℕ × HiredisCall)} (hlive : s.exited = false)
      (hi : s.thread i = (n, .append f) :: ops) (hf : f.Yields ok) :
      Step s i (s.advance i n ops (s.context.append (i, n) ok) none)
  | getReply {s : RedisSystem ι} {i : ι} {n : ℕ} {ops : List (ℕ × HiredisCall)} {a : ι × ℕ}
      {c : RedisContext (ι × ℕ)} (hlive : s.exited = false)
      (hi : s.thread i = (n, .getReply) :: ops) (h : s.context.GetReply a c) :
      Step s i (s.advance i n ops c (some a))
  | handleError {s : RedisSystem ι} {i : ι} {n : ℕ} {ops : List (ℕ × HiredisCall)}
      (hlive : s.exited = false) (hi : s.thread i = (n, .getReply) :: ops) (h : s.context.Fails) :
      Step s i { s with exited := true }
  | command {s : RedisSystem ι} {i : ι} {n : ℕ} {f : Formatted} {ops : List (ℕ × HiredisCall)}
      {r : Option (ι × ℕ)} {c : RedisContext (ι × ℕ)} (hlive : s.exited = false)
      (hi : s.thread i = (n, .command f) :: ops) (h : s.context.Command (i, n) f r c) :
      Step s i (s.advance i n ops c r)

/-- Threads that are about to make their calls. -/
def start (vprintf : Str → VaArg → Str) (slaves : ℤ) (calls : ι → List RedisCall) :
    RedisSystem ι :=
  ⟨.connect, fun i => hiredisCalls vprintf slaves 0 (calls i), false, []⟩

/-- Each reply that was taken answers a command of the call that took it. -/
def OwnReplies (s : RedisSystem ι) : Prop := ∀ p ∈ s.taken, p.1 = p.2

/-- No command of a thread other than `i` is unanswered. -/
def Turn (s : RedisSystem ι) (i : ι) : Prop := ∀ a ∈ s.context.pending, a.1 = i

end RedisSystem

/-! ### Commands and replies of one thread -/

/-- The next call takes a reply. -/
def Draining (ops : List (ℕ × HiredisCall)) : Prop := ∃ n ops', ops = (n, .getReply) :: ops'

/-- Alone with the unanswered commands of the calls `p`, a thread takes the replies that are its
call's, and it takes all of them before it appends again. -/
def Paired : List ℕ → List (ℕ × HiredisCall) → Prop
  | p, [] => p = []
  | p, (n, .append _) :: ops => Paired (p ++ [n]) ops
  | p, (n, .getReply) :: ops => ∃ p', p = n :: p' ∧ Paired p' ops ∧ (p' ≠ [] → Draining ops)
  | p, (_, .command _) :: ops => p = [] ∧ Paired [] ops

theorem paired_hiredisCalls (vprintf : Str → VaArg → Str) (slaves : ℤ) (n : ℕ)
    (calls : List RedisCall) : Paired [] (hiredisCalls vprintf slaves n calls) := by
  induction calls generalizing n with
  | nil => rfl
  | cons c calls ih =>
    have hrest := ih (n + 1)
    rw [hiredisCalls]
    rcases c.hiredis_cases vprintf slaves with ⟨-, argv, ap, hread⟩ | ⟨cmd, -, hcommand⟩
    · rw [hread]
      exact ⟨rfl, hrest⟩
    · rw [hcommand, RedisClient.command]
      split_ifs
      · exact ⟨[n], rfl, ⟨[], rfl, hrest, absurd rfl⟩, fun _ => ⟨n, _, rfl⟩⟩
      · exact ⟨[], rfl, hrest, absurd rfl⟩

namespace RedisSystem

variable {ι : Type} [DecidableEq ι] {s s' : RedisSystem ι} {i : ι}

/-- The calls of a thread whose commands are unanswered. -/
def mine (c : RedisContext (ι × ℕ)) (i : ι) : List ℕ :=
  (c.pending.filter fun a => a.1 = i).map Prod.snd

theorem mine_of_turn (h : s.Turn i) : mine s.context i = s.context.pending.map Prod.snd := by
  have hfilter : s.context.pending.filter (fun a => a.1 = i) = s.context.pending :=
    List.filter_eq_self.2 fun a ha => decide_eq_true (h a ha)
  rw [mine, hfilter]

theorem mine_append (c : RedisContext (ι × ℕ)) (n : ℕ) (j : ι) :
    mine (c.append (i, n) true) j = if i = j then mine c j ++ [n] else mine c j := by
  rw [mine, RedisContext.pending_append, List.filter_append, List.map_append]
  split_ifs with hij <;> simp [mine, hij]

/-- What holds when no thread interrupts another. -/
structure Invariant (s : RedisSystem ι) : Prop where
  own : s.OwnReplies
  reader_of_err : s.context.err = true → s.context.reader = []
  paired : s.context.err = false → ∀ i, Paired (mine s.context i) (s.thread i)
  draining : s.context.err = false → ∀ a ∈ s.context.reader, Draining (s.thread a.1)

theorem invariant_start (vprintf : Str → VaArg → Str) (slaves : ℤ) (calls : ι → List RedisCall) :
    (start vprintf slaves calls).Invariant where
  own := by simp [OwnReplies, start]
  reader_of_err _ := rfl
  paired _ _ := paired_hiredisCalls _ _ _ _
  draining _ := by simp [start, RedisContext.connect]

/-- A thread that is about to append finds the reader empty. -/
theorem Invariant.reader_eq_nil (hs : s.Invariant) (hturn : s.Turn i)
    (hi : ¬ Draining (s.thread i)) : s.context.reader = [] := by
  by_cases herr : s.context.err = true
  · exact hs.reader_of_err herr
  · by_contra hne
    obtain ⟨a, ha⟩ := List.exists_mem_of_ne_nil _ hne
    have hdraining := hs.draining (Bool.not_eq_true _ ▸ herr) a ha
    have hmem : a ∈ s.context.pending := by simp [RedisContext.pending, ha]
    rw [hturn a hmem] at hdraining
    exact hi hdraining

/-! ### The step -/

section Step

variable {n : ℕ} {f : Formatted} {ops : List (ℕ × HiredisCall)} {c : RedisContext (ι × ℕ)}
  {a : ι × ℕ} {r : Option (ι × ℕ)}

/-- A call of hiredis keeps the invariant if it takes its own reply at most and leaves its thread
paired. -/
theorem Invariant.advance (hs : s.Invariant) (hown : ∀ a ∈ r, (i, n) = a)
    (hreader : c.err = true → c.reader = []) (herr : c.err = false → s.context.err = false)
    (hpaired : c.err = false → Paired (mine c i) ops)
    (hothers : ∀ j, j ≠ i → mine c j = mine s.context j)
    (hdraining : c.err = false → ∀ a ∈ c.reader, a.1 = i ∧ Draining ops) :
    (s.advance i n ops c r).Invariant := by
  refine ⟨fun q hq => ?_, hreader, fun h j => ?_, fun h b hb => ?_⟩
  · rcases List.mem_append.1 hq with hq | hq
    · exact hs.own q hq
    · obtain ⟨b, hb, rfl⟩ := List.mem_map.1 hq
      exact hown b (Option.mem_toList.1 hb)
  · rw [context_advance]
    by_cases hj : j = i
    · obtain rfl := hj
      rw [thread_advance_self]
      exact hpaired h
    · rw [thread_advance_of_ne hj, hothers j hj]
      exact hs.paired (herr h) j
  · obtain ⟨rfl, hdrain⟩ := hdraining h b hb
    rwa [thread_advance_self]

/-- `redisAppendCommand`. -/
theorem Invariant.append {ok : Bool} (hs : s.Invariant) (hturn : s.Turn i)
    (hi : s.thread i = (n, .append f) :: ops) :
    (s.advance i n ops (s.context.append (i, n) ok) none).Invariant := by
  have hnil : s.context.reader = [] := hs.reader_eq_nil hturn (by simp [hi, Draining])
  have hnil' : (s.context.append (i, n) ok).reader = [] := by
    cases ok <;> exact hnil
  refine hs.advance nofun (fun _ => hnil') (fun herr => ?_) (fun herr => ?_) (fun j hj => ?_)
    (fun _ a ha => ?_)
  · cases ok with
    | false => exact absurd herr nofun
    | true => exact herr
  · cases ok with
    | false => exact absurd herr nofun
    | true =>
      have hpaired := hs.paired herr i
      rw [hi] at hpaired
      rw [mine_append, if_pos rfl]
      exact hpaired
  · cases ok with
    | false => rfl
    | true => rw [mine_append, if_neg (Ne.symm hj)]
  · rw [hnil'] at ha
    cases ha

/-- What a reply leaves unanswered. -/
theorem mine_of_getReply (h : s.context.GetReply a c) (hturn : s.Turn i) :
    a.1 = i ∧ (∀ b ∈ c.pending, b.1 = i) ∧ mine s.context i = a.2 :: mine c i ∧
      ∀ j, j ≠ i → mine c j = mine s.context j := by
  have hall : ∀ b ∈ a :: c.pending, b.1 = i := h.pending_eq ▸ hturn
  obtain ⟨ha, hc⟩ := List.forall_mem_cons.1 hall
  refine ⟨ha, hc, ?_, fun j hj => ?_⟩
  · rw [mine, mine, h.pending_eq, List.filter_cons_of_pos (by simpa using ha), List.map_cons]
  · rw [mine, mine, h.pending_eq, List.filter_cons_of_neg (by simpa [ha] using Ne.symm hj)]

/-- `redisGetReply`. -/
theorem Invariant.getReply (hs : s.Invariant) (hturn : s.Turn i)
    (hi : s.thread i = (n, .getReply) :: ops) (h : s.context.GetReply a c) :
    (s.advance i n ops c (some a)).Invariant := by
  have herr : s.context.err = false := h.err_eq_false hs.reader_of_err
  obtain ⟨ha, hc, hmine, hothers⟩ := mine_of_getReply h hturn
  have hpaired := hs.paired herr i
  rw [hi, hmine] at hpaired
  obtain ⟨p, hp, hops, hdrain⟩ := hpaired
  obtain ⟨hn, rfl⟩ := List.cons.inj hp
  refine hs.advance ?_ (fun herr' => ?_) (fun _ => herr) (fun _ => hops) hothers fun _ b hb => ?_
  · intro b hb
    obtain rfl : a = b := Option.mem_some_iff.1 hb
    rw [← ha, ← hn]
  · exact absurd (herr'.symm.trans (h.err_eq.trans herr)) nofun
  · have hmem : b ∈ c.pending := by simp [RedisContext.pending, hb]
    have hb' : b.2 ∈ mine c i :=
      List.mem_map_of_mem (List.mem_filter.2 ⟨hmem, decide_eq_true (hc b hmem)⟩)
    exact ⟨hc b hmem, hdrain (List.ne_nil_of_mem hb')⟩

/-- `redisCommand` and `redisCommandArgv`. -/
theorem Invariant.command (hs : s.Invariant) (hturn : s.Turn i)
    (hi : s.thread i = (n, .command f) :: ops) (h : s.context.Command (i, n) f r c) :
    (s.advance i n ops c r).Invariant := by
  have hnil : s.context.reader = [] := hs.reader_eq_nil hturn (by simp [hi, Draining])
  cases h with
  | @reply a c hf h =>
    have herr : s.context.err = false := h.err_eq_false fun _ => hnil
    have hpaired := hs.paired herr i
    rw [hi, mine_of_turn hturn] at hpaired
    obtain ⟨hmine, hops⟩ := hpaired
    -- nothing else is unanswered
    have hpending : s.context.pending = [] := List.map_eq_nil_iff.1 hmine
    have hqueue := h.pending_eq
    rw [RedisContext.pending_append, hpending] at hqueue
    obtain ⟨ha, hc⟩ := List.cons.inj hqueue
    have hnone : ∀ j, mine c j = [] := fun j => by simp [mine, ← hc]
    refine hs.advance ?_ (fun herr' => ?_) (fun _ => herr) (fun _ => ?_) (fun j _ => ?_)
      fun _ b hb => ?_
    · intro b hb
      rw [ha]
      exact Option.mem_some_iff.1 hb
    · exact absurd (herr'.symm.trans (h.err_eq.trans herr)) nofun
    · rwa [hnone]
    · rw [hnone, mine, hpending]
      rfl
    · have hmem : b ∈ c.pending := by simp [RedisContext.pending, hb]
      rw [← hc] at hmem
      cases hmem
  | fail hf h =>
    refine hs.advance nofun (fun _ => h.1) (fun herr => ?_) (fun herr => ?_) (fun j hj => ?_)
      fun herr => ?_
    · exact herr
    · exact absurd (herr.symm.trans h.2) nofun
    · rw [mine_append, if_neg (Ne.symm hj)]
    · exact absurd (herr.symm.trans h.2) nofun
  | formatErr hf =>
    exact hs.advance nofun (fun _ => hnil) nofun nofun (fun _ _ => rfl) nofun

/-- A call of hiredis by a thread whose turn it is. -/
theorem Invariant.step (hs : s.Invariant) (hturn : s.Turn i) (h : Step s i s') : s'.Invariant := by
  cases h with
  | append _ hi _ => exact hs.append hturn hi
  | getReply _ hi h => exact hs.getReply hturn hi h
  | handleError => exact ⟨hs.own, hs.reader_of_err, hs.paired, hs.draining⟩
  | command _ hi h => exact hs.command hturn hi h

end Step

/-- **Own replies.** In a run in which no thread makes a call of hiredis while a command of another
thread is unanswered, each reply that is taken answers a command of the call that takes it. -/
theorem ownReplies_of_runs {vprintf : Str → VaArg → Str} {slaves : ℤ} {calls : ι → List RedisCall}
    (h : Runs Step Turn (start vprintf slaves calls) s) : s.OwnReplies := by
  have hinv : s.Invariant :=
    h.invariant (invariant_start vprintf slaves calls) fun _ _ _ _ hs hturn hstep =>
      hs.step hturn hstep
  exact hinv.own

end RedisSystem

end YcsbC
