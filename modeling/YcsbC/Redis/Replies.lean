import YcsbC.Redis.Connection

/-!
# Whose reply a call takes

Threads that make `Read`s only, or one thread alone, take their own replies. In any other case the
commands of two threads can be unanswered at once, since `RedisClient::Command` appends and takes
its reply in different calls of hiredis, and the thread that asks first takes the reply of the one
that appended first.

## Main definitions

* `RedisSystem.OnlyReads`, `OneThread`: the calls of the threads.
* `RedisSystem.RunsTo`: a thread runs alone for a while.

## Main results

* `RedisSystem.exists_foreign_reply`: one thread takes the reply of another.
* `RedisSystem.ownReplies_iff`: when every call takes its own replies in every run.
-/

namespace YcsbC

namespace RedisSystem

variable {ι : Type} [DecidableEq ι] {s s' : RedisSystem ι} {i j : ι}
  {vprintf : Str → VaArg → Str} {slaves : ℤ} {calls : ι → List RedisCall}

/-- All calls are `Read`s. -/
def OnlyReads (calls : ι → List RedisCall) : Prop := ∀ i, ∀ c ∈ calls i, c.text = none

/-- One thread makes all calls. -/
def OneThread (calls : ι → List RedisCall) : Prop :=
  ∀ i j, calls i ≠ [] → calls j ≠ [] → i = j

/-- The assertions of a call hold, and its text is a right format. -/
structure Formats (vprintf : Str → VaArg → Str) (c : RedisCall) : Prop where
  asserted : c.Asserted
  format : ∀ cmd ∈ c.text, ∃ argv ap, redisvFormatCommand vprintf cmd [] = .ok argv ap

/-- All runs of the threads. -/
abbrev Reachable (vprintf : Str → VaArg → Str) (slaves : ℤ) (calls : ι → List RedisCall) :
    RedisSystem ι → Prop :=
  Runs Step (fun _ _ => True) (start vprintf slaves calls)

/-! ### Runs in which nobody is interrupted -/

/-- The calls of a `Read`. -/
def ReadOp (op : ℕ × HiredisCall) : Prop := ∃ argv ap, op.2 = .command (.ok argv ap)

theorem readOp_hiredisCalls {cs : List RedisCall} (h : ∀ c ∈ cs, c.text = none) (n : ℕ) :
    ∀ op ∈ hiredisCalls vprintf slaves n cs, ReadOp op := by
  induction cs generalizing n with
  | nil => exact fun op hop => by cases hop
  | cons c cs ih =>
    obtain ⟨hc, hcs⟩ := List.forall_mem_cons.1 h
    intro op hop
    rw [hiredisCalls] at hop
    rcases List.mem_append.1 hop with hop | hop
    · rcases c.hiredis_cases vprintf slaves with ⟨-, argv, ap, hread⟩ | ⟨cmd, hcmd, -⟩
      · rw [hread, List.map_singleton, List.mem_singleton] at hop
        exact ⟨argv, ap, hop ▸ rfl⟩
      · rw [hc] at hcmd
        cases hcmd
    · exact ih hcs (n + 1) op hop

theorem Step.thread_eq (h : Step s i s') (hj : j ≠ i) : s'.thread j = s.thread j := by
  cases h with
  | handleError => rfl
  | _ => exact thread_advance_of_ne hj

theorem Step.thread_ne_nil (h : Step s i s') : s.thread i ≠ [] := by
  cases h with
  | _ _ hi _ => exact hi ▸ List.cons_ne_nil _ _

omit [DecidableEq ι] in
theorem append_pending_subset {c : RedisContext (ι × ℕ)} {n : ℕ} {ok : Bool}
    (h : ∀ a ∈ c.pending, a.1 = i) : ∀ a ∈ (c.append (i, n) ok).pending, a.1 = i := by
  cases ok with
  | false => exact h
  | true =>
    intro a ha
    rw [RedisContext.pending_append] at ha
    rcases List.mem_append.1 ha with ha | ha
    · exact h a ha
    · rw [List.mem_singleton.1 ha]

/-- The turn stays with a thread while it makes calls. -/
theorem Step.turn (h : Step s i s') (hturn : s.Turn i) : s'.Turn i := by
  have hreply : ∀ {c c' : RedisContext (ι × ℕ)} {a : ι × ℕ}, c.GetReply a c' →
      (∀ a ∈ c.pending, a.1 = i) → ∀ a ∈ c'.pending, a.1 = i := by
    intro c c' a h hc b hb
    exact hc b (h.pending_eq ▸ List.mem_cons_of_mem a hb)
  cases h with
  | append => exact append_pending_subset hturn
  | getReply _ _ h => exact hreply h hturn
  | handleError => exact hturn
  | command _ _ h =>
    cases h with
    | reply _ h => exact hreply h (append_pending_subset hturn)
    | fail => exact append_pending_subset hturn
    | formatErr => exact append_pending_subset hturn

/-- Nothing is unanswered, and all that the threads have before them is `Read`s. -/
structure Reading (s : RedisSystem ι) : Prop where
  err : s.context.err = false
  pending : s.context.pending = []
  ops : ∀ i, ∀ op ∈ s.thread i, ReadOp op

omit [DecidableEq ι] in
theorem Reading.turn (h : s.Reading) (i : ι) : s.Turn i := by
  intro a ha
  rw [h.pending] at ha
  cases ha

omit [DecidableEq ι] in
theorem Reading.op {n : ℕ} {o : HiredisCall} {ops : List (ℕ × HiredisCall)} (h : s.Reading)
    (hi : s.thread i = (n, o) :: ops) :
    (∃ argv ap, o = .command (.ok argv ap)) ∧ ∀ op ∈ ops, ReadOp op := by
  have hops := h.ops i
  rw [hi] at hops
  exact List.forall_mem_cons.1 hops

/-- A `Read` takes the reply to its command and leaves nothing behind. -/
theorem Reading.step (h : s.Reading) (hstep : Step s i s') : s'.Reading := by
  cases hstep with
  | append _ hi _ =>
    obtain ⟨⟨_, _, hop⟩, -⟩ := h.op hi
    cases hop
  | getReply _ hi _ =>
    obtain ⟨⟨_, _, hop⟩, -⟩ := h.op hi
    cases hop
  | handleError => exact ⟨h.err, h.pending, h.ops⟩
  | @command n f ops r c _ hi hcommand =>
    obtain ⟨⟨argv, ap, hop⟩, hrest⟩ := h.op hi
    obtain rfl : f = .ok argv ap := HiredisCall.command.inj hop
    have hcontext : c.err = false ∧ c.pending = [] := by
      cases hcommand with
      | reply _ hreply =>
        have hqueue := hreply.pending_eq
        rw [RedisContext.pending_append, h.pending] at hqueue
        exact ⟨hreply.err_eq.trans h.err, (List.cons.inj hqueue).2.symm⟩
      | fail _ hfails => exact absurd (hfails.2.symm.trans h.err) nofun
      | formatErr hf => cases hf
    refine ⟨hcontext.1, hcontext.2, fun j => ?_⟩
    by_cases hj : j = i
    · obtain rfl := hj
      rwa [thread_advance_self]
    · rw [thread_advance_of_ne hj]
      exact h.ops j

/-- Threads that only read leave nothing unanswered. -/
theorem ownReplies_of_onlyReads (hreads : OnlyReads calls)
    (h : Reachable vprintf slaves calls s) : s.OwnReplies :=
  ownReplies_of_runs <| h.meets (I := Reading)
    ⟨rfl, rfl, fun i => readOp_hiredisCalls (hreads i) 0⟩
    fun _ i _ hs _ hstep => ⟨hs.turn i, hs.step hstep⟩

/-- One thread alone. -/
theorem ownReplies_of_oneThread (hone : OneThread calls)
    (h : Reachable vprintf slaves calls s) : s.OwnReplies := by
  refine ownReplies_of_runs (h.meets
    (I := fun s => ∀ i, s.thread i ≠ [] → s.Turn i ∧ ∀ j, j ≠ i → s.thread j = []) ?_ ?_)
  · intro i hi
    have hturn : (start vprintf slaves calls).Turn i := by
      simp [Turn, start, RedisContext.connect, RedisContext.pending]
    refine ⟨hturn, fun j hj => ?_⟩
    have hcalls : ∀ k, (start vprintf slaves calls).thread k ≠ [] → calls k ≠ [] :=
      fun k hk hnil => hk (by simp [start, hnil, hiredisCalls])
    by_contra hne
    exact hj (hone j i (hcalls j hne) (hcalls i hi))
  · intro s i s' hs _ hstep
    obtain ⟨hturn, hothers⟩ := hs i hstep.thread_ne_nil
    refine ⟨hturn, fun k hk => ?_⟩
    have hki : k = i := by
      by_contra hne
      rw [hstep.thread_eq hne, hothers k hne] at hk
      exact hk rfl
    rw [hki]
    exact ⟨hstep.turn hturn, fun j hj => (hstep.thread_eq hj).trans (hothers j hj)⟩

/-! ### Two threads -/

/-- The thread `i` alone runs up to `ops`, and the context is `c` then. -/
structure RunsTo (s : RedisSystem ι) (i : ι) (ops : List (ℕ × HiredisCall))
    (c : RedisContext (ι × ℕ)) (s' : RedisSystem ι) : Prop where
  runs : Runs Step (fun _ _ => True) s s'
  live : s'.exited = false
  context : s'.context = c
  thread : s'.thread i = ops
  others : ∀ j, j ≠ i → s'.thread j = s.thread j

section RunsTo

variable {n : ℕ} {ops : List (ℕ × HiredisCall)} {c : RedisContext (ι × ℕ)}

theorem RunsTo.trans {s'' : RedisSystem ι} {ops' : List (ℕ × HiredisCall)}
    {c' : RedisContext (ι × ℕ)} (h : s.RunsTo i ops c s') (h' : s'.RunsTo i ops' c' s'') :
    s.RunsTo i ops' c' s'' where
  runs := h.runs.trans h'.runs
  live := h'.live
  context := h'.context
  thread := h'.thread
  others j hj := (h'.others j hj).trans (h.others j hj)

theorem runsTo_advance (hlive : s.exited = false) {r : Option (ι × ℕ)}
    (h : Step s i (s.advance i n ops c r)) : s.RunsTo i ops c (s.advance i n ops c r) where
  runs := .single trivial h
  live := hlive
  context := rfl
  thread := thread_advance_self
  others _ hj := thread_advance_of_ne hj

theorem exists_append {argv : List Str} {ap : List VaArg} (hlive : s.exited = false)
    (hi : s.thread i = (n, .append (.ok argv ap)) :: ops) :
    ∃ s', s.RunsTo i ops (s.context.append (i, n) true) s' :=
  ⟨_, runsTo_advance hlive (.append hlive hi (.ok argv ap))⟩

/-- The reply to the oldest command, when it arrives alone. -/
theorem step_getReply {a : ι × ℕ} {sent obuf rest : List (ι × ℕ)} (hlive : s.exited = false)
    (hi : s.thread i = (n, .getReply) :: ops) (hc : s.context = ⟨[], sent, obuf, false⟩)
    (hqueue : sent ++ obuf = a :: rest) :
    Step s i (s.advance i n ops ⟨[], rest, [], false⟩ (some a)) := by
  refine .getReply hlive hi ?_
  rw [hc]
  exact .read rfl rfl hqueue

theorem formats_wait (vprintf : Str → VaArg → Str) (slaves : ℤ) :
    ∃ argv ap, redisvFormatCommand vprintf "WAIT %d %d".toList [.int slaves, .int 0] =
      .ok argv ap :=
  ⟨_, _, rfl⟩

theorem exists_appends {cmd : Str} {argv : List Str} {ap : List VaArg}
    (hf : redisvFormatCommand vprintf cmd [] = .ok argv ap) {obuf : List (ι × ℕ)}
    (hlive : s.exited = false) (hcontext : s.context = ⟨[], [], obuf, false⟩)
    (hi : s.thread i = (RedisClient.command vprintf slaves cmd).map (n, ·) ++ ops) :
    ∃ s' k, s.RunsTo i (List.replicate (k + 1) (n, .getReply) ++ ops)
      ⟨[], [], obuf ++ List.replicate (k + 1) (i, n), false⟩ s' := by
  obtain ⟨argv', ap', hwait⟩ := formats_wait vprintf slaves
  rw [RedisClient.command, hf, hwait] at hi
  obtain ⟨s₁, h₁⟩ := exists_append hlive hi
  have hobuf : s₁.context = ⟨[], [], obuf ++ [(i, n)], false⟩ := by
    rw [h₁.context, hcontext]
    rfl
  have hi₁ := h₁.thread
  split_ifs at hi₁
  · obtain ⟨s₂, h₂⟩ := exists_append h₁.live hi₁
    have hobuf₂ : s₂.context = ⟨[], [], obuf ++ List.replicate 2 (i, n), false⟩ := by
      rw [h₂.context, hobuf]
      simp [RedisContext.append]
    exact ⟨s₂, 1, { h₁.trans h₂ with context := hobuf₂ }⟩
  · exact ⟨s₁, 0, { h₁ with context := hobuf, thread := hi₁ }⟩

/-- A thread takes the replies to its commands. -/
theorem exists_replies {k : ℕ} {sent obuf : List (ι × ℕ)} (hlive : s.exited = false)
    (hcontext : s.context = ⟨[], sent, obuf, false⟩)
    (hqueue : sent ++ obuf = List.replicate (k + 1) (i, n))
    (hi : s.thread i = List.replicate (k + 1) (n, .getReply) ++ ops) :
    ∃ s', s.RunsTo i ops .connect s' := by
  induction k generalizing s sent obuf with
  | zero => exact ⟨_, runsTo_advance hlive (step_getReply hlive hi hcontext hqueue)⟩
  | succ k ih =>
    have hfirst := runsTo_advance hlive (step_getReply hlive hi hcontext hqueue)
    obtain ⟨s', hrest⟩ := ih hfirst.live hfirst.context (List.append_nil _) hfirst.thread
    exact ⟨s', hfirst.trans hrest⟩

/-- A thread makes a whole call. -/
theorem exists_call {d : RedisCall} (hd : Formats vprintf d) (hlive : s.exited = false)
    (hcontext : s.context = .connect)
    (hi : s.thread i = (d.hiredis vprintf slaves).map (n, ·) ++ ops) :
    ∃ s', s.RunsTo i ops .connect s' := by
  rcases d.hiredis_cases vprintf slaves with ⟨-, argv, ap, hread⟩ | ⟨cmd, hcmd, hcommand⟩
  · rw [hread] at hi
    have hreply : s.context.Command (i, n) (.ok argv ap) (some (i, n)) .connect := by
      rw [hcontext]
      exact .reply (.ok argv ap) (.read rfl rfl rfl)
    exact ⟨_, runsTo_advance hlive (.command hlive hi hreply)⟩
  · obtain ⟨argv, ap, hf⟩ := hd.format cmd hcmd
    rw [hcommand] at hi
    obtain ⟨s₁, k, h₁⟩ := exists_appends hf hlive hcontext hi
    obtain ⟨s₂, h₂⟩ := exists_replies h₁.live h₁.context (List.nil_append _) h₁.thread
    exact ⟨s₂, h₁.trans h₂⟩

theorem exists_calls {d : RedisCall} {before after : List RedisCall}
    (hbefore : ∀ c ∈ before, Formats vprintf c) (hlive : s.exited = false)
    (hcontext : s.context = .connect)
    (hi : s.thread i = hiredisCalls vprintf slaves n (before ++ d :: after)) :
    ∃ s' n', s.RunsTo i (hiredisCalls vprintf slaves n' (d :: after)) .connect s' := by
  induction before generalizing s n with
  | nil => exact ⟨s, n, .start, hlive, hcontext, hi, fun _ _ => rfl⟩
  | cons e before ih =>
    obtain ⟨he, hbefore⟩ := List.forall_mem_cons.1 hbefore
    obtain ⟨s₁, h₁⟩ := exists_call he hlive hcontext hi
    obtain ⟨s₂, n', h₂⟩ := ih hbefore h₁.live h₁.context h₁.thread
    exact ⟨s₂, n', h₁.trans h₂⟩

end RunsTo

/-- A thread that makes a call while the command of another is unanswered takes its reply. -/
theorem exists_foreign_of_pending {d : RedisCall} (hd : Formats vprintf d) (hji : j ≠ i)
    {m n : ℕ} {ops : List (ℕ × HiredisCall)} (hlive : s.exited = false)
    (hcontext : s.context = ⟨[], [], [(i, n)], false⟩)
    (hj : s.thread j = (d.hiredis vprintf slaves).map (m, ·) ++ ops) :
    ∃ s', Runs Step (fun _ _ => True) s s' ∧ ¬ s'.OwnReplies := by
  have hforeign : ∀ (t : RedisSystem ι) ops c,
      ¬ (t.advance j m ops c (some (i, n))).OwnReplies := by
    intro t ops c hown
    have hmem : ((j, m), (i, n)) ∈ (t.advance j m ops c (some (i, n))).taken :=
      List.mem_append_right _ List.mem_cons_self
    exact hji (congrArg Prod.fst (hown _ hmem))
  rcases d.hiredis_cases vprintf slaves with ⟨-, argv, ap, hread⟩ | ⟨cmd, hcmd, hcommand⟩
  · rw [hread] at hj
    have hreply : s.context.Command (j, m) (.ok argv ap) (some (i, n))
        ⟨[], [(j, m)], [], false⟩ := by
      rw [hcontext]
      exact .reply (.ok argv ap) (.read rfl rfl rfl)
    exact ⟨_, .single trivial (.command hlive hj hreply), hforeign _ _ _⟩
  · obtain ⟨argv, ap, hf⟩ := hd.format cmd hcmd
    rw [hcommand] at hj
    obtain ⟨s₁, k, h₁⟩ := exists_appends hf hlive hcontext hj
    have htake := step_getReply h₁.live h₁.thread h₁.context rfl
    exact ⟨_, h₁.runs.step trivial htake, hforeign _ _ _⟩

/-- **A foreign reply.** If one thread makes a call through `RedisClient::Command` and another makes
any call, then some run lets one take the reply of the other. -/
theorem exists_foreign_reply (hformats : ∀ i, ∀ c ∈ calls i, Formats vprintf c) {c : RedisCall}
    (hc : c ∈ calls i) (htext : c.text ≠ none) (hji : j ≠ i) (hj : calls j ≠ []) :
    ∃ s, Reachable vprintf slaves calls s ∧ ¬ s.OwnReplies := by
  obtain ⟨before, after, hcalls⟩ := List.append_of_mem hc
  obtain ⟨d, rest, hd⟩ := List.exists_cons_of_ne_nil hj
  have hbefore : ∀ c ∈ before, Formats vprintf c := fun c hmem =>
    hformats i c (by rw [hcalls]; exact List.mem_append_left _ hmem)
  obtain ⟨s, n, h⟩ := exists_calls (s := start vprintf slaves calls) (n := 0) hbefore rfl rfl
    (congrArg (hiredisCalls vprintf slaves 0) hcalls)
  rcases c.hiredis_cases vprintf slaves with ⟨hnone, -⟩ | ⟨cmd, hcmd, hcommand⟩
  · exact absurd hnone htext
  · obtain ⟨argv, ap, hf⟩ := (hformats i c hc).format cmd hcmd
    have hi := h.thread
    rw [hiredisCalls, hcommand, RedisClient.command, hf] at hi
    obtain ⟨s₁, h₁⟩ := exists_append h.live hi
    have hpending : s₁.context = ⟨[], [], [(i, n)], false⟩ := by
      rw [h₁.context, h.context]
      rfl
    have hthread : s₁.thread j = (d.hiredis vprintf slaves).map (0, ·) ++
        hiredisCalls vprintf slaves 1 rest := by
      rw [h₁.others j hji, h.others j hji]
      show hiredisCalls vprintf slaves 0 (calls j) = _
      rw [hd, hiredisCalls]
    obtain ⟨s₂, hrun₂, hforeign⟩ := exists_foreign_of_pending
      (hformats j d (hd ▸ List.mem_cons_self)) hji h₁.live hpending hthread
    exact ⟨s₂, (h.runs.trans h₁.runs).trans hrun₂, hforeign⟩

/-! ### When every call takes its own replies -/

/-- **When every call takes its own replies.** If all calls are `Read`s or one thread makes all
calls, then in every run each reply that is taken answers a command of the call that takes it. Where
the assertions of the calls hold and their texts are right formats, this is the only case. -/
theorem ownReplies_iff (vprintf : Str → VaArg → Str) (slaves : ℤ) (calls : ι → List RedisCall) :
    (OnlyReads calls ∨ OneThread calls →
      ∀ s, Reachable vprintf slaves calls s → s.OwnReplies) ∧
    ((∀ i, ∀ c ∈ calls i, Formats vprintf c) →
      (∀ s, Reachable vprintf slaves calls s → s.OwnReplies) →
        OnlyReads calls ∨ OneThread calls) := by
  refine ⟨fun h s hs => ?_, fun hformats hown => ?_⟩
  · rcases h with hreads | hone
    · exact ownReplies_of_onlyReads hreads hs
    · exact ownReplies_of_oneThread hone hs
  · by_contra hnot
    rw [not_or] at hnot
    obtain ⟨hreads, hone⟩ := hnot
    simp only [OnlyReads, OneThread, not_forall] at hreads hone
    obtain ⟨i, c, hc, htext⟩ := hreads
    obtain ⟨j, k, hj, hk, hjk⟩ := hone
    -- one of the two threads is not the one that commands
    obtain ⟨l, hli, hl⟩ : ∃ l, l ≠ i ∧ calls l ≠ [] := by
      by_cases hji : j = i
      · exact ⟨k, fun hki => hjk (hji.trans hki.symm), hk⟩
      · exact ⟨j, hji, hj⟩
    obtain ⟨s, hs, hforeign⟩ : ∃ s, Reachable vprintf slaves calls s ∧ ¬ s.OwnReplies :=
      exists_foreign_reply hformats hc htext hli hl
    exact hforeign (hown s hs)

/-- Two threads that read. -/
theorem ownReplies_two_readers :
    (∀ s, Reachable (fun _ _ => []) 0 (fun _ : Fin 2 => [.read "user0".toList none]) s →
      s.OwnReplies) ∧
    (OnlyReads (fun _ : Fin 2 => [.read "user0".toList none]) ∨
      OneThread (fun _ : Fin 2 => [.read "user0".toList none])) := by
  have hreads : OnlyReads (fun _ : Fin 2 => [.read "user0".toList none]) := by
    intro i c hc
    rw [List.mem_singleton.1 hc]
    rfl
  have hformats : ∀ i, ∀ c ∈ (fun _ : Fin 2 => [RedisCall.read "user0".toList none]) i,
      Formats (fun _ _ => []) c := by
    intro i c hc
    refine ⟨?_, fun cmd hcmd => ?_⟩
    · rw [List.mem_singleton.1 hc]
      trivial
    · rw [hreads i c hc] at hcmd
      cases hcmd
  have hown := (ownReplies_iff (fun _ _ => []) 0 _).1 (.inl hreads)
  exact ⟨hown, (ownReplies_iff (fun _ _ => []) 0 _).2 hformats hown⟩

/-- Two threads that delete: one takes the reply of the other. -/
theorem deletes_swap_replies :
    ¬ ∀ s, Reachable (fun _ _ => []) 0 (fun _ : Fin 2 => [.delete "user0".toList]) s →
      s.OwnReplies := by
  have hformats : ∀ i, ∀ c ∈ (fun _ : Fin 2 => [RedisCall.delete "user0".toList]) i,
      Formats (fun _ _ => []) c := by
    intro i c hc
    rw [List.mem_singleton.1 hc]
    refine ⟨trivial, fun cmd hcmd => ?_⟩
    obtain rfl : RedisDB.deleteCommand "user0".toList = cmd := Option.mem_some_iff.1 hcmd
    exact ⟨["DEL".toList, "user0".toList], [], by decide⟩
  obtain ⟨s, hs, hforeign⟩ : ∃ s, Reachable (fun _ _ => []) 0
      (fun _ : Fin 2 => [.delete "user0".toList]) s ∧ ¬ s.OwnReplies :=
    exists_foreign_reply (i := 0) (j := 1) hformats List.mem_cons_self nofun (by decide) nofun
  exact fun hown => hforeign (hown s hs)

end RedisSystem

end YcsbC
