import YcsbC.Ceph.LostWakeup

/-!
# The buffers of the asynchronous operations

librbd may access the buffer of an operation until the operation's callback starts. The buffer of a
read comes from `malloc` and the callback frees it, so it outlives the operation. The buffer of a
write is a local array of `Update` or `Insert`, which return without waiting: unless the callback
has started by then, the array is gone while the operation still uses it.

## Main definitions

* `RealCephDB.Owned`: who owns each buffer, while a call holds some.
* `RealCephSystem.BuffersSafe`: the buffers of the operations that librbd may still access are there
  and belong to one operation each, and every heap buffer is freed once.
* `RealCephSystem.Prompt`: no call returns before the callback of its write has started, and `Read`
  is called with keys that it can parse.

## Main results

* `RealCephSystem.owned`: the ownership of the buffers in every run of prompt steps.
* `RealCephSystem.buffers_safe`: such runs are safe, and a step that is not prompt leads to a state
  that is not.
* `RealCephSystem.update_leaves_buffer`: a run with one `Update` that is not safe.
-/

namespace YcsbC

variable {ι : Type}

/-- The callback has not freed the buffer yet. -/
def Completion.isUnfreed : Completion → Bool
  | pending => true
  | started => true
  | _ => false

/-- What the running call holds: a block that it has allocated and not submitted, whether its array
is declared, and whether it has submitted a write from it. -/
structure Hold where
  block : Option ℕ
  declared : Bool
  wrote : Bool

/-- No call is running. -/
def Hold.nothing : Hold := ⟨none, false, false⟩

namespace RealCephDB

/-- The block `p` is allocated. -/
def Live (s : RealCephDB ι) (p : ℕ) : Prop := s.heap.get p = some ()

/-- The buffer of an operation is allocated: a block of the heap, or the array of the call that the
thread is running. -/
def Allocated (s : RealCephDB ι) : AioKind ι → Prop
  | .read p => s.Live p
  | .write i => s.frame i = true

/-- The owners of the buffers, where the thread `o` is within a call that holds `g`. -/
structure Owned (o : Option ι) (g : Hold) (s : RealCephDB ι) : Prop where
  below : ∀ (n : ℕ) (a : Aio ι) p, s.aios[n]? = some a → a.kind = .read p → p < s.heap.next
  read_live : ∀ (n : ℕ) (a : Aio ι) p, s.aios[n]? = some a → a.kind = .read p →
    a.completion.isUnfreed → s.Live p
  read_inj : ∀ (m n : ℕ) (a b : Aio ι) p, s.aios[m]? = some a → s.aios[n]? = some b →
    a.kind = .read p → b.kind = .read p → m = n
  block : ∀ p, g.block = some p → s.Live p ∧ p < s.heap.next ∧
    ∀ (n : ℕ) (a : Aio ι), s.aios[n]? = some a → a.kind ≠ .read p
  declared : g.declared → ∀ i, o = some i → s.frame i = true
  write : ∀ (n : ℕ) (a : Aio ι) i, s.aios[n]? = some a → a.kind = .write i →
    a.completion = .pending → o = some i ∧ g.wrote ∧ s.frame i = true
  write_inj : ∀ (m n : ℕ) (a b : Aio ι) i j, s.aios[m]? = some a → s.aios[n]? = some b →
    a.kind = .write i → b.kind = .write j → a.completion = .pending → b.completion = .pending →
    m = n
  freed_nodup : s.freed.Nodup
  freed_dead : ∀ p ∈ s.freed, p < s.heap.next ∧ ¬ s.Live p
  accounted : ∀ p < s.heap.next, p ∈ s.freed ∨ g.block = some p ∨
    ∃ (n : ℕ) (a : Aio ι), s.aios[n]? = some a ∧ a.kind = .read p ∧ a.completion.isUnfreed

variable {s s' : RealCephDB ι} {o : Option ι} {g g' : Hold}

theorem owned_new : Owned none .nothing (new : RealCephDB ι) where
  below n a p ha := by simp [new] at ha
  read_live n a p ha := by simp [new] at ha
  read_inj m n a b p ha := by simp [new] at ha
  block p hp := by cases hp
  declared hd := by cases hd
  write n a i ha := by simp [new] at ha
  write_inj m n a b i j ha := by simp [new] at ha
  freed_nodup := List.nodup_nil
  freed_dead p hp := by cases hp
  accounted p hp := absurd hp (Nat.not_lt_zero p)

theorem Owned.of_eq (h : Owned o g s) (haios : s'.aios = s.aios) (hheap : s'.heap = s.heap)
    (hfreed : s'.freed = s.freed) (hframe : s'.frame = s.frame) : Owned o g s' where
  below := by rw [haios, hheap]; exact h.below
  read_live := by rw [haios]; unfold Live; rw [hheap]; exact h.read_live
  read_inj := by rw [haios]; exact h.read_inj
  block := by rw [haios]; unfold Live; rw [hheap]; exact h.block
  declared := by rw [hframe]; exact h.declared
  write := by rw [haios, hframe]; exact h.write
  write_inj := by rw [haios]; exact h.write_inj
  freed_nodup := by rw [hfreed]; exact h.freed_nodup
  freed_dead := by rw [hfreed]; unfold Live; rw [hheap]; exact h.freed_dead
  accounted := by rw [hfreed, haios, hheap]; exact h.accounted

/-! ### The steps of a call -/

theorem Owned.malloc (h : Owned o g s) (hg : g.block = none) :
    Owned o { g with block := some s.heap.next } { s with heap := (s.heap.alloc ()).2 } := by
  have hlive : ∀ p, s.Live p → Live { s with heap := (s.heap.alloc ()).2 } p :=
    fun p hp => Heap.get_alloc_of_some hp ()
  have hnext : ∀ {p}, p < s.heap.next → p < (s.heap.alloc ()).2.next := fun {p} hp =>
    Nat.lt_succ_of_lt hp
  refine { h with
    below := fun n a p ha hk => hnext (h.below n a p ha hk)
    read_live := fun n a p ha hk hc => hlive p (h.read_live n a p ha hk hc)
    block := ?_, freed_dead := ?_, accounted := ?_ }
  · rintro p hp
    cases hp
    refine ⟨?_, Nat.lt_succ_self _, fun n a ha hk => ?_⟩
    · show (s.heap.alloc ()).2.get s.heap.next = some ()
      rw [Heap.get_alloc, if_pos rfl]
    · exact lt_irrefl _ (h.below n a _ ha hk)
  · intro p hp
    obtain ⟨hlt, hdead⟩ := h.freed_dead p hp
    refine ⟨hnext hlt, fun hlive' => hdead ?_⟩
    have hget : (s.heap.alloc ()).2.get p = some () := hlive'
    rwa [Heap.get_alloc, if_neg (by omega)] at hget
  · intro p hp
    have hcases : p < s.heap.next ∨ p = s.heap.next := Nat.lt_succ_iff_lt_or_eq.1 hp
    rcases hcases with hlt | rfl
    · rcases h.accounted p hlt with hfreed | hblock | hread
      · exact .inl hfreed
      · rw [hg] at hblock
        cases hblock
      · exact .inr (.inr hread)
    · exact .inr (.inl rfl)

theorem Owned.declareBuf [DecidableEq ι] {i : ι} (h : Owned (some i) g s) :
    Owned (some i) { g with declared := true }
      { s with frame := Function.update s.frame i true } := by
  have hframe : ∀ j, s.frame j = true → Function.update s.frame i true j = true := fun j hj => by
    by_cases hji : j = i
    · rw [hji, Function.update_self]
    · rw [Function.update_of_ne hji, hj]
  refine { h with declared := fun _ j hj => ?_, write := fun n a j ha hk hc => ?_ }
  · cases hj
    exact Function.update_self ..
  · obtain ⟨ho, hwrote, hj⟩ := h.write n a j ha hk hc
    exact ⟨ho, hwrote, hframe j hj⟩

theorem getElem?_concat {l : List (Aio ι)} {a b : Aio ι} {n : ℕ} (h : (l ++ [a])[n]? = some b) :
    l[n]? = some b ∨ n = l.length ∧ b = a := by
  rcases Nat.lt_or_ge n l.length with hn | hn
  · rw [List.getElem?_append_left hn] at h
    exact .inl h
  · rw [List.getElem?_append_right hn] at h
    obtain ⟨hlt, heq⟩ := List.getElem?_eq_some_iff.1 h
    have hzero : n - l.length = 0 := Nat.lt_one_iff.1 hlt
    simp only [hzero, List.getElem_cons_zero] at heq
    exact .inr ⟨by omega, heq.symm⟩

/-- A submission. The buffer of a read is the block that the call holds; that of a write is the
array of the call, which it has not submitted before. -/
theorem Owned.submit {k : AioKind ι} (h : Owned o g s) (offset : ℤ)
    (hblock : ∀ p, g.block = some p ↔ g'.block = some p ∨ k = .read p)
    (hother : ∀ p, g'.block = some p → k ≠ .read p) (hdeclared : g'.declared → g.declared)
    (hwrote : g.wrote → g'.wrote)
    (hwrite : ∀ i, k = .write i → o = some i ∧ g'.wrote ∧ s.frame i = true ∧ g.wrote = false) :
    Owned o g' { s with aios := s.aios ++ [⟨k, offset, .pending⟩] } := by
  have hold : ∀ {n : ℕ} {a : Aio ι}, s.aios[n]? = some a →
      (s.aios ++ [⟨k, offset, .pending⟩])[n]? = some a := fun {n a} ha => by
    rw [List.getElem?_append_left (List.getElem?_eq_some_iff.1 ha).1, ha]
  have hread : ∀ p, k = .read p → s.Live p ∧ p < s.heap.next ∧
      ∀ (n : ℕ) (a : Aio ι), s.aios[n]? = some a → a.kind ≠ .read p := fun p hk =>
    h.block p ((hblock p).2 (.inr hk))
  -- a write is the first one of its call, so no other is pending
  have hfirst : ∀ {n : ℕ} {a : Aio ι} {i j : ι}, k = .write i → s.aios[n]? = some a →
      a.kind = .write j → a.completion ≠ .pending := fun {n a i j} hk ha hkind hc => by
    have htrue : g.wrote = true := (h.write n a j ha hkind hc).2.1
    rw [(hwrite i hk).2.2.2] at htrue
    cases htrue
  refine { h with
    below := fun n a q ha hk => ?_, read_live := fun n a q ha hk hc => ?_
    read_inj := fun m n a b q ha hb hka hkb => ?_, block := fun q hq => ?_
    declared := fun hd => h.declared (hdeclared hd), write := fun n a j ha hk hc => ?_
    write_inj := fun m n a b i j ha hb hka hkb hca hcb => ?_, accounted := fun q hq => ?_ }
  · rcases getElem?_concat ha with ha | ⟨-, rfl⟩
    · exact h.below n a q ha hk
    · exact (hread q hk).2.1
  · rcases getElem?_concat ha with ha | ⟨-, rfl⟩
    · exact h.read_live n a q ha hk hc
    · exact (hread q hk).1
  · rcases getElem?_concat ha with ha | ⟨hm, rfl⟩ <;> rcases getElem?_concat hb with hb | ⟨hn, rfl⟩
    · exact h.read_inj m n a b q ha hb hka hkb
    · exact absurd hka ((hread q hkb).2.2 m a ha)
    · exact absurd hkb ((hread q hka).2.2 n b hb)
    · exact hm.trans hn.symm
  · obtain ⟨hlive, hlt, hfresh⟩ := h.block q ((hblock q).2 (.inl hq))
    refine ⟨hlive, hlt, fun n a ha => ?_⟩
    rcases getElem?_concat ha with ha | ⟨-, rfl⟩
    · exact hfresh n a ha
    · exact hother q hq
  · rcases getElem?_concat ha with ha | ⟨-, rfl⟩
    · obtain ⟨ho, hw, hframe⟩ := h.write n a j ha hk hc
      exact ⟨ho, hwrote hw, hframe⟩
    · obtain ⟨ho, hw, hframe, -⟩ := hwrite j hk
      exact ⟨ho, hw, hframe⟩
  · rcases getElem?_concat ha with ha | ⟨hm, rfl⟩ <;> rcases getElem?_concat hb with hb | ⟨hn, rfl⟩
    · exact h.write_inj m n a b i j ha hb hka hkb hca hcb
    · exact absurd hca (hfirst hkb ha hka)
    · exact absurd hcb (hfirst hka hb hkb)
    · exact hm.trans hn.symm
  · rcases h.accounted q hq with hfreed | hheld | ⟨n, a, ha, hk, hc⟩
    · exact .inl hfreed
    · rcases (hblock q).1 hheld with hheld' | hk
      · exact .inr (.inl hheld')
      · exact .inr (.inr ⟨s.aios.length, _, List.getElem?_concat_length, hk, rfl⟩)
    · exact .inr (.inr ⟨n, a, hold ha, hk, hc⟩)

theorem Owned.submit_read {p : ℕ} (h : Owned o g s) (hg : g.block = some p) (offset : ℤ) :
    Owned o { g with block := none }
      { s with aios := s.aios ++ [⟨.read p, offset, .pending⟩] } := by
  refine h.submit offset (fun q => ?_) nofun id id nofun
  rw [hg, Option.some.injEq, AioKind.read.injEq]
  exact (or_iff_right nofun).symm

/-- The first write of a call from its array. -/
theorem Owned.submit_write {i : ι} (h : Owned (some i) g s) (hdeclared : g.declared)
    (hwrote : g.wrote = false) (offset : ℤ) :
    Owned (some i) { g with wrote := true }
      { s with aios := s.aios ++ [⟨.write i, offset, .pending⟩] } := by
  refine h.submit offset (fun q => (or_iff_left nofun).symm) nofun id (fun _ => rfl) fun j hj => ?_
  obtain rfl : i = j := AioKind.write.inj hj
  exact ⟨rfl, rfl, h.declared hdeclared i rfl, hwrote⟩

/-! ### The steps of a callback -/

theorem getElem?_complete {n m : ℕ} {a b : Aio ι} {c : Completion} (ha : s.aios[n]? = some a)
    (hb : (s.complete n a c).aios[m]? = some b) :
    (m ≠ n ∧ s.aios[m]? = some b) ∨ (m = n ∧ b = { a with completion := c }) := by
  have hset : (s.aios.set n { a with completion := c })[m]? = some b := hb
  by_cases hmn : m = n
  · subst hmn
    rw [List.getElem?_set_self (List.getElem?_eq_some_iff.1 ha).1] at hset
    exact .inr ⟨rfl, (Option.some.inj hset).symm⟩
  · rw [List.getElem?_set_ne (Ne.symm hmn)] at hset
    exact .inl ⟨hmn, hset⟩

theorem exists_of_complete {n m : ℕ} {a b : Aio ι} {c : Completion} (ha : s.aios[n]? = some a)
    (hb : (s.complete n a c).aios[m]? = some b) :
    ∃ b', s.aios[m]? = some b' ∧ b.kind = b'.kind ∧ (m ≠ n → b = b') := by
  rcases getElem?_complete ha hb with ⟨-, hb'⟩ | ⟨rfl, rfl⟩
  · exact ⟨b, hb', rfl, fun _ => rfl⟩
  · exact ⟨a, ha, rfl, fun hne => absurd rfl hne⟩

theorem pending_of_complete {n m : ℕ} {a b : Aio ι} {c : Completion} (ha : s.aios[n]? = some a)
    (hc : c ≠ .pending) (hb : (s.complete n a c).aios[m]? = some b)
    (hcb : b.completion = .pending) : s.aios[m]? = some b := by
  rcases getElem?_complete ha hb with ⟨-, hb'⟩ | ⟨-, rfl⟩
  · exact hb'
  · exact absurd hcb hc

/-- A step of a callback that frees no buffer. -/
theorem Owned.complete {n : ℕ} {a : Aio ι} {c : Completion} (h : Owned o g s)
    (ha : s.aios[n]? = some a) (hc : c ≠ .pending)
    (hread : ∀ p, a.kind = .read p → c.isUnfreed = a.completion.isUnfreed) :
    Owned o g (s.complete n a c) where
  below m b p hb hk := by
    obtain ⟨b', hb', hkind, -⟩ := exists_of_complete ha hb
    exact h.below m b' p hb' (hkind ▸ hk)
  read_live m b p hb hk hcb := by
    rcases getElem?_complete ha hb with ⟨-, hb'⟩ | ⟨rfl, rfl⟩
    · exact h.read_live m b p hb' hk hcb
    · exact h.read_live m a p ha hk (hread p hk ▸ hcb)
  read_inj m m' b b' p hb hb' hk hk' := by
    obtain ⟨d, hd, hkind, -⟩ := exists_of_complete ha hb
    obtain ⟨d', hd', hkind', -⟩ := exists_of_complete ha hb'
    exact h.read_inj m m' d d' p hd hd' (hkind ▸ hk) (hkind' ▸ hk')
  block p hp := by
    obtain ⟨hlive, hlt, hfresh⟩ := h.block p hp
    refine ⟨hlive, hlt, fun m b hb hk => ?_⟩
    obtain ⟨b', hb', hkind, -⟩ := exists_of_complete ha hb
    exact hfresh m b' hb' (hkind ▸ hk)
  declared := h.declared
  write m b i hb hk hcb := h.write m b i (pending_of_complete ha hc hb hcb) hk hcb
  write_inj m m' b b' i j hb hb' hk hk' hcb hcb' :=
    h.write_inj m m' b b' i j (pending_of_complete ha hc hb hcb)
      (pending_of_complete ha hc hb' hcb') hk hk' hcb hcb'
  freed_nodup := h.freed_nodup
  freed_dead := h.freed_dead
  accounted p hp := by
    rcases h.accounted p hp with hfreed | hblock | ⟨m, b, hb, hk, hcb⟩
    · exact .inl hfreed
    · exact .inr (.inl hblock)
    · refine .inr (.inr ?_)
      by_cases hmn : m = n
      · subst hmn
        obtain rfl : a = b := Option.some.inj (ha.symm.trans hb)
        exact ⟨m, { a with completion := c },
          List.getElem?_set_self (List.getElem?_eq_some_iff.1 ha).1, hk, (hread p hk).trans hcb⟩
      · refine ⟨m, b, ?_, hk, hcb⟩
        show (s.aios.set n _)[m]? = some b
        rw [List.getElem?_set_ne (Ne.symm hmn), hb]

/-- The callback of a read frees the buffer, which is live and belongs to no other operation. -/
theorem Owned.free {n p : ℕ} {a : Aio ι} (h : Owned o g s) (ha : s.aios[n]? = some a)
    (hk : a.kind = .read p) (hc : a.completion = .started) :
    Owned o g ((s.free p).complete n a .freed) := by
  have hlive : s.Live p := h.read_live n a p ha hk (by rw [hc]; rfl)
  have hget : ∀ q, q ≠ p → ((s.free p).Live q ↔ s.Live q) := fun q hq => by
    show (s.heap.free p).get q = some () ↔ _
    rw [Heap.get_free, if_neg hq]
    rfl
  have hdead : ¬ (s.free p).Live p := by
    show ¬ (s.heap.free p).get p = some ()
    rw [Heap.get_free, if_pos rfl]
    exact Option.some_ne_none () ∘ Eq.symm
  have ha' : (s.free p).aios[n]? = some a := ha
  have hc' : Completion.freed ≠ .pending := nofun
  refine
    { below := fun m b q hb hkb => ?_, read_live := fun m b q hb hkb hcb => ?_
      read_inj := fun m m' b b' q hb hb' hkb hkb' => ?_, block := fun q hq => ?_
      declared := h.declared
      write := fun m b i hb hkb hcb => h.write m b i (pending_of_complete ha' hc' hb hcb) hkb hcb
      write_inj := fun m m' b b' i j hb hb' hkb hkb' hcb hcb' =>
        h.write_inj m m' b b' i j (pending_of_complete ha' hc' hb hcb)
          (pending_of_complete ha' hc' hb' hcb') hkb hkb' hcb hcb'
      freed_nodup := List.nodup_cons.2 ⟨fun hp => (h.freed_dead p hp).2 hlive, h.freed_nodup⟩
      freed_dead := fun q hq => ?_, accounted := fun q hq => ?_ }
  · obtain ⟨b', hb', hkind, -⟩ := exists_of_complete ha' hb
    exact h.below m b' q hb' (hkind ▸ hkb)
  · rcases getElem?_complete ha' hb with ⟨hmn, hb'⟩ | ⟨-, rfl⟩
    · have hqp : q ≠ p := fun hqp => hmn (h.read_inj m n b a q hb' ha hkb (hqp ▸ hk))
      exact (hget q hqp).2 (h.read_live m b q hb' hkb hcb)
    · cases hcb
  · obtain ⟨d, hd, hkind, -⟩ := exists_of_complete ha' hb
    obtain ⟨d', hd', hkind', -⟩ := exists_of_complete ha' hb'
    exact h.read_inj m m' d d' q hd hd' (hkind ▸ hkb) (hkind' ▸ hkb')
  · obtain ⟨hlq, hlt, hfresh⟩ := h.block q hq
    have hqp : q ≠ p := fun hqp => hfresh n a ha (hqp ▸ hk)
    refine ⟨(hget q hqp).2 hlq, hlt, fun m b hb hkb => ?_⟩
    obtain ⟨b', hb', hkind, -⟩ := exists_of_complete ha' hb
    exact hfresh m b' hb' (hkind ▸ hkb)
  · rcases List.mem_cons.1 hq with rfl | hq
    · exact ⟨h.below n a q ha hk, hdead⟩
    · obtain ⟨hlt, hnot⟩ := h.freed_dead q hq
      have hqp : q ≠ p := fun hqp => hnot (hqp ▸ hlive)
      exact ⟨hlt, fun hl => hnot ((hget q hqp).1 hl)⟩
  · by_cases hqp : q = p
    · exact .inl (hqp ▸ List.mem_cons_self ..)
    · rcases h.accounted q hq with hfreed | hblock | ⟨m, b, hb, hkb, hcb⟩
      · exact .inl (List.mem_cons_of_mem _ hfreed)
      · exact .inr (.inl hblock)
      · have hmn : m ≠ n := by
          rintro rfl
          obtain rfl : a = b := Option.some.inj (ha.symm.trans hb)
          rw [hk] at hkb
          cases hkb
          exact hqp rfl
        refine .inr (.inr ⟨m, b, ?_, hkb, hcb⟩)
        show (s.aios.set n _)[m]? = some b
        rw [List.getElem?_set_ne (Ne.symm hmn), hb]

/-! ### The calls -/

/-- A step of a call of the thread `i`, by which it holds `g'` instead of `g`. -/
def OwnMove (i : ι) (g : Hold) (s : RealCephDB ι) (g' : Hold) (s' : RealCephDB ι) : Prop :=
  Owned (some i) g s → Owned (some i) g' s'

/-- At the end of a call no block is left without an owner; a call that throws has not submitted a
write. -/
def OwnPost (g : Hold) (res : Option Status) : Prop :=
  g.block = none ∧ (res = none → g.wrote = false)

/-- A program of the thread `i` that moves the buffers as it should from the hold `g` on. -/
abbrev OwnObeys {α : Type} (i : ι) (g : Hold) (p : Program (RealCephDB ι) α)
    (post : Hold → α → Prop) : Prop :=
  p.Obeys (fun _ _ => True) (OwnMove i) post g

open Program

section Calls

variable {α β : Type} {i : ι} {post : Hold → α → Prop}

theorem ownObeys_atomic_bind {f : RealCephDB ι → β × RealCephDB ι}
    {k : β → Program (RealCephDB ι) α}
    (hf : ∀ s, (f s).2.aios = s.aios ∧ (f s).2.heap = s.heap ∧ (f s).2.freed = s.freed ∧
      (f s).2.frame = s.frame)
    (hk : ∀ b, OwnObeys i g (k b) post) : OwnObeys i g (atomic f >>= k) post :=
  obeys_atomic_bind fun s _ =>
    ⟨g, fun h => h.of_eq (hf s).1 (hf s).2.1 (hf s).2.2.1 (hf s).2.2.2, hk _⟩

theorem ownObeys_pushTime (v : TimeVector) (hg : g.block = none) :
    OwnObeys i g (do
      pushTime v
      pure (some .kOK)) OwnPost :=
  ownObeys_atomic_bind (fun _ => ⟨rfl, rfl, rfl, rfl⟩) fun _ =>
    obeys_pure ⟨hg, fun h => by cases h⟩

theorem ownObeys_read (i : ι) {key : Str} (hkey : (realKey key).isSome) :
    OwnObeys i .nothing (read key) OwnPost := by
  obtain ⟨n, hn⟩ := Option.isSome_iff_exists.1 hkey
  refine ownObeys_atomic_bind (fun _ => ⟨rfl, rfl, rfl, rfl⟩) fun _ => ?_
  refine obeys_atomic_bind fun s _ => ⟨⟨some s.heap.next, false, false⟩, fun h => h.malloc rfl, ?_⟩
  simp only [hn]
  refine obeys_atomic_bind fun _ _ => ⟨.nothing, fun h => h.submit_read rfl _, ?_⟩
  exact ownObeys_atomic_bind (fun _ => ⟨rfl, rfl, rfl, rfl⟩) fun _ => ownObeys_pushTime _ rfl

variable [DecidableEq ι]

theorem ownObeys_writeBlock (i : ι) (key : Str) {k : Bool → Program (RealCephDB ι) α}
    (hfails : OwnObeys i ⟨none, true, false⟩ (k false) post)
    (hk : OwnObeys i ⟨none, true, true⟩ (k true) post) :
    OwnObeys i .nothing (writeBlock i key >>= k) post := by
  rw [writeBlock, bind_assoc]
  refine obeys_atomic_bind fun _ _ => ⟨⟨none, true, false⟩, fun h => h.declareBuf, ?_⟩
  cases realKey key with
  | none => exact hfails
  | some n =>
    simp only [bind_assoc]
    refine obeys_atomic_bind fun _ _ => ⟨⟨none, true, true⟩, fun h => h.submit_write rfl rfl _, ?_⟩
    exact ownObeys_atomic_bind (fun _ => ⟨rfl, rfl, rfl, rfl⟩) fun _ => hk

theorem ownObeys_update (i : ι) (key : Str) : OwnObeys i .nothing (update i key) OwnPost := by
  refine ownObeys_atomic_bind (fun _ => ⟨rfl, rfl, rfl, rfl⟩) fun _ => ?_
  exact ownObeys_writeBlock i key (obeys_pure ⟨rfl, fun _ => rfl⟩) (ownObeys_pushTime _ rfl)

theorem ownObeys_insert (i : ι) (key : Str) : OwnObeys i .nothing (insert i key) OwnPost := by
  have hpush : OwnObeys i ⟨none, true, true⟩ (do
      pushInsertTime
      pure (some .kOK)) OwnPost := by
    rw [pushInsertTime, bind_assoc]
    refine ownObeys_atomic_bind (fun _ => ⟨rfl, rfl, rfl, rfl⟩) fun phase => ?_
    split_ifs <;> exact ownObeys_pushTime _ rfl
  refine ownObeys_atomic_bind (fun _ => ⟨rfl, rfl, rfl, rfl⟩) fun phase => ?_
  split_ifs with hphase
  · exact obeys_pure ⟨rfl, fun h => by cases h⟩
  have hwrite : OwnObeys i .nothing (writeBlock i key >>= fun b =>
      if b then do
        pushInsertTime
        pure (some .kOK)
      else pure none) OwnPost :=
    ownObeys_writeBlock i key (obeys_pure ⟨rfl, fun _ => rfl⟩) hpush
  rw [countInsert, bind_assoc]
  refine ownObeys_atomic_bind (fun _ => ⟨rfl, rfl, rfl, rfl⟩) fun phase => ?_
  split_ifs
  · exact ownObeys_atomic_bind (fun _ => ⟨rfl, rfl, rfl, rfl⟩) fun _ => hwrite
  · exact hwrite

/-- Every request moves the buffers as it should, except a `Read` that throws. -/
theorem ownObeys_program (i : ι) (r : CephRequest)
    (hr : ∀ key, r = .call (.read key) → (realKey key).isSome) :
    OwnObeys i .nothing (r.program i) OwnPost := by
  cases r with
  | init flag =>
    exact obeys_atomic fun _ _ => ⟨.nothing, fun h => h.of_eq rfl rfl rfl rfl, rfl, fun _ => rfl⟩
  | call c =>
    cases c with
    | read key => exact ownObeys_read i (hr key rfl)
    | update key => exact ownObeys_update i key
    | insert key => exact ownObeys_insert i key
    | scan key =>
      exact ownObeys_atomic_bind (fun _ => ⟨rfl, rfl, rfl, rfl⟩) fun _ => ownObeys_pushTime _ rfl
    | delete key =>
      exact ownObeys_atomic_bind (fun _ => ⟨rfl, rfl, rfl, rfl⟩) fun _ => ownObeys_pushTime _ rfl

end Calls

/-! ### The end of a call -/

section Return

variable {o' : Option ι}

/-- When the running call holds nothing, it may be any. -/
theorem Owned.of_nothing (h : Owned o .nothing s) : Owned o' .nothing s :=
  { h with
    declared := fun hd => by cases hd
    write := fun n a j ha hk hc => by
      have hwrote := (h.write n a j ha hk hc).2.1
      cases hwrote }

/-- A call ends that has no block, when no write from its array is pending. -/
theorem Owned.popFrame [DecidableEq ι] {i : ι} (h : Owned (some i) g s) (hblock : g.block = none)
    (hpending : ∀ a ∈ s.aios, a.kind = .write i → a.completion ≠ .pending) :
    Owned o' .nothing (s.popFrame i) :=
  { h with
    block := fun p hp => by cases hp
    declared := fun hd => by cases hd
    write := fun n a j ha hk hc => by
      obtain rfl : i = j := Option.some.inj (h.write n a j ha hk hc).1
      exact absurd hc (hpending a (List.mem_of_getElem? ha) hk)
    accounted := fun p hp => by
      have hcases := h.accounted p hp
      rwa [hblock] at hcases }

end Return

end RealCephDB

namespace RealCephSystem

variable {s s' : RealCephSystem ι} {e : CephEvent ι}

/-- The buffers of the operations whose callbacks have not started are allocated and no two of these
operations share one; no heap buffer is freed twice; and between the calls each heap buffer has been
freed or belongs to a read whose callback is about to free it. -/
structure BuffersSafe (s : RealCephSystem ι) : Prop where
  allocated : ∀ a ∈ s.db.aios, a.completion = .pending → s.db.Allocated a.kind
  separate : ∀ (m n : ℕ) (a b : Aio ι), s.db.aios[m]? = some a → s.db.aios[n]? = some b →
    a.completion = .pending → b.completion = .pending → a.kind = b.kind → m = n
  freed_once : s.db.freed.Nodup
  freed_all : s.mutex = none → ∀ p < s.db.heap.next, p ∈ s.db.freed ∨
    ∃ a ∈ s.db.aios, a.kind = .read p ∧ a.completion.isUnfreed

/-- The step is no `Read` with a key that `std::stoi` rejects, and no return of a call whose write
is pending. -/
def Prompt (s : RealCephSystem ι) : CephEvent ι → Prop
  | .lock i => ∀ key rs, s.client i = .idle (.call (.read key) :: rs) → (realKey key).isSome
  | .ret i => ∀ a ∈ s.db.aios, a.kind = .write i → a.completion ≠ .pending
  | _ => True

variable [DecidableEq ι] {load transactions : ι → List CephRequest}

/-- **The owners of the buffers in a run of prompt steps.** -/
theorem owned (h : Runs (Step transactions) Prompt (new load) s) :
    ∃ g, RealCephDB.Owned s.mutex g s.db ∧ Tracks .nothing (fun _ _ _ _ => True)
      (fun i _ => RealCephDB.OwnMove i) (fun _ _ => RealCephDB.OwnPost) s g := by
  refine invariant (I := fun s g => RealCephDB.Owned s.mutex g s.db) h RealCephDB.owned_new
    ?_ ?_ ?_ ?_ ?_ ?_ ?_
  · intro s i r rs hs hok _ hi
    exact ⟨.nothing, RealCephDB.ownObeys_program i r fun key hr => hok key rs (hr ▸ hi),
      hs.of_nothing⟩
  · exact fun _ _ _ _ _ _ _ _ _ => trivial
  · intro s g i r p rs g' db' p' hs hmutex _ hm
    have hs' : RealCephDB.Owned (some i) g s.db := hmutex ▸ hs
    show RealCephDB.Owned s.mutex g' db'
    rw [hmutex]
    exact hm hs'
  · intro s g i r p rs st hs hok hmutex _ hpost
    have hs' : RealCephDB.Owned (some i) g s.db := hmutex ▸ hs
    exact hs'.popFrame hpost.1 hok
  · intro s g i r p rs hs _ hmutex _ hpost
    have hs' : RealCephDB.Owned (some i) g s.db := hmutex ▸ hs
    refine hs'.popFrame hpost.1 fun a ha hk hc => ?_
    obtain ⟨n, hn⟩ := List.mem_iff_getElem?.1 ha
    have hwrote := (hs'.write n a i hn hk hc).2.1
    rw [hpost.2 rfl] at hwrote
    cases hwrote
  · intro s g e s' hs _ hmove
    cases hmove with
    | start ha hc => exact hs.complete ha (by simp) fun p hk => by rw [hc]; rfl
    | exit ha hk hc => exact hs
    | free ha hk hc => exact hs.free ha hk hc
    | decrement ha hc =>
      have huncount : RealCephDB.Owned s.mutex g s.db.uncountAsyncOp := hs.of_eq rfl rfl rfl rfl
      exact huncount.complete ha (by simp) fun p hk => by rw [hc, hk]; rfl
    | notify ha hc => exact hs.complete ha (by simp) fun p hk => by rw [hc]; rfl
  · intro s g e s' hs _ _ hmove
    cases hmove <;> exact hs

/-- A call returns while its write is pending: the array is gone. -/
theorem ret_unsafe {i : ι} (hstep : Step transactions s (.ret i) s')
    (hpending : ¬ ∀ a ∈ s.db.aios, a.kind = .write i → a.completion ≠ .pending) :
    ¬ BuffersSafe s' := by
  simp only [not_forall, not_not] at hpending
  obtain ⟨a, ha, hk, hc⟩ := hpending
  obtain ⟨-, hclient | hback | hmove⟩ := hstep
  · cases hclient with
    | ret hi =>
      intro hsafe
      have hallocated := hsafe.allocated a ha hc
      rw [hk] at hallocated
      have hframe : Function.update s.db.frame i false i = true := hallocated
      rw [Function.update_self] at hframe
      cases hframe
  · cases hback
  · cases hmove

/-- A `Read` throws: its block is lost. -/
theorem read_unsafe {i : ι} {g : Hold} (howned : RealCephDB.Owned s.mutex g s.db)
    (hstep : Step transactions s (.lock i) s') {key : Str} {rs : List CephRequest}
    (hi : s.client i = .idle (.call (.read key) :: rs)) (hkey : realKey key = none) :
    ∃ s'', Runs (Step transactions) (fun _ _ => True) s' s'' ∧ ¬ BuffersSafe s'' := by
  have hstart : Runs (Step transactions) (fun _ _ => True) s' s' := .start
  obtain ⟨hexited, hclient | hback | hmove⟩ := hstep
  · cases hclient with
    | @lock i r rs' hmutex hi' =>
      cases hi.symm.trans hi'
      have hprogram : CephRequest.program i (.call (.read key)) = (do
          RealCephDB.countOp
          let _ ← RealCephDB.malloc
          pure none) := by
        show RealCephDB.read key = _
        simp only [RealCephDB.read, hkey]
      rw [hprogram] at hstart ⊢
      have hops := runs_client hstart trivial hexited (.run (i := i) (Function.update_self ..))
      have hmalloc := runs_client hops trivial hexited (.run (i := i) (Function.update_self ..))
      have hthrow := runs_client hmalloc trivial hexited (.throw (i := i) (Function.update_self ..))
      refine ⟨_, hthrow, fun hsafe => ?_⟩
      rcases hsafe.freed_all rfl s.db.heap.next (Nat.lt_succ_self _) with hfreed | ⟨a, ha, hk, -⟩
      · exact lt_irrefl _ (howned.freed_dead _ hfreed).1
      · obtain ⟨n, hn⟩ := List.mem_iff_getElem?.1 ha
        exact lt_irrefl _ (howned.below n a _ hn hk)
  · cases hback
  · cases hmove

/-- **When the buffers outlive their operations.** In a run in which no call returns before the
callback of its write has started, and no `Read` throws, the buffers are safe. Any other step leads
to a state in which they are not. -/
theorem buffers_safe (h : Runs (Step transactions) Prompt (new load) s) :
    BuffersSafe s ∧ ∀ e s', Step transactions s e s' → ¬ Prompt s e →
      ∃ s'', Runs (Step transactions) (fun _ _ => True) s' s'' ∧ ¬ BuffersSafe s'' := by
  obtain ⟨g, howned, htracks⟩ := owned h
  refine ⟨⟨fun a ha hc => ?_, fun m n a b ha hb hca hcb hk => ?_, howned.freed_nodup,
    fun hmutex p hp => ?_⟩, fun e s' hstep he => ?_⟩
  · obtain ⟨n, hn⟩ := List.mem_iff_getElem?.1 ha
    cases hk : a.kind with
    | read p => exact howned.read_live n a p hn hk (by rw [hc]; rfl)
    | write i => exact (howned.write n a i hn hk hc).2.2
  · cases hka : a.kind with
    | read p => exact howned.read_inj m n a b p ha hb hka (hk ▸ hka)
    | write i => exact howned.write_inj m n a b i i ha hb hka (hk ▸ hka) hca hcb
  · obtain rfl := htracks.idle hmutex
    rcases howned.accounted p hp with hfreed | hblock | ⟨n, a, ha, hk, hc⟩
    · exact .inl hfreed
    · cases hblock
    · exact .inr ⟨a, List.mem_of_getElem? ha, hk, hc⟩
  · cases e with
    | lock i =>
      simp only [Prompt, not_forall] at he
      obtain ⟨key, rs, hi, hkey⟩ := he
      exact read_unsafe howned hstep hi (Option.not_isSome_iff_eq_none.1 hkey)
    | ret i => exact ⟨s', .start, ret_unsafe hstep he⟩
    | _ => exact absurd trivial he

theorem runs_one_update :
    ∃ s : RealCephSystem Unit,
      Runs (Step fun _ => transactionRequests [.update "user0".toList]) Prompt
        (new fun _ => loadRequests []) s ∧
      s.exited = false ∧ s.db.aios = [⟨.write (), 0, .pending⟩] ∧
      s.client () = .running (.call (.update "user0".toList)) (do
        RealCephDB.countAsyncOp
        RealCephDB.pushTime .updateTime
        pure (some .kOK)) [] := by
  have hnew : Runs (Step fun _ : Unit => transactionRequests [.update "user0".toList]) Prompt
    (new fun _ => loadRequests []) (new fun _ => loadRequests []) := .start
  have hlock := runs_client (e := .lock ()) hnew (fun _ _ h => by cases h) rfl (.lock rfl rfl)
  have hinit := runs_client (e := .run ()) hlock trivial rfl (.run rfl)
  have hret := runs_client (e := .ret ()) hinit (fun _ h => by cases h) rfl (.ret rfl)
  have hjoin := runs_main (e := .joinLoad) hret trivial rfl (.joinLoad rfl fun _ => rfl)
  have hlock' := runs_client (e := .lock ()) hjoin (fun _ _ h => by cases h) rfl (.lock rfl rfl)
  have hinit' := runs_client (e := .run ()) hlock' trivial rfl (.run rfl)
  have hret' := runs_client (e := .ret ()) hinit' (fun _ h => by cases h) rfl (.ret rfl)
  have hupdate := runs_client (e := .lock ()) hret' (fun _ _ h => by cases h) rfl (.lock rfl rfl)
  have hops := runs_client (e := .run ()) hupdate trivial rfl (.run rfl)
  have hdeclare := runs_client (e := .run ()) hops trivial rfl (.run rfl)
  have hsubmit := runs_client (e := .run ()) hdeclare trivial rfl (.run rfl)
  exact ⟨_, hsubmit, rfl, rfl, rfl⟩

/-- One `Update` whose callback starts before it returns: the buffers are safe. -/
theorem buffers_safe_one_update :
    ∃ s : RealCephSystem Unit,
      Runs (Step fun _ => transactionRequests [.update "user0".toList]) Prompt
        (new fun _ => loadRequests []) s ∧
      s.client () = .idle [] ∧ s.db.aios = [⟨.write (), 0, .started⟩] ∧ BuffersSafe s := by
  obtain ⟨s, hrun, hexited, haios, hclient⟩ := runs_one_update
  have hstart := runs_callback (e := .start 0) hrun trivial hexited
    (.start (a := ⟨.write (), 0, .pending⟩) (by rw [haios]; rfl) rfl)
  have hcount := runs_client (e := .run ()) hstart trivial hexited (.run hclient)
  have hpush := runs_client (e := .run ()) hcount trivial hexited (.run rfl)
  have haios' : s.db.aios.set 0 ⟨.write (), 0, .started⟩ = [⟨.write (), 0, .started⟩] := by
    rw [haios, List.set_cons_zero]
  have hprompt : ∀ a ∈ s.db.aios.set 0 ⟨.write (), 0, .started⟩, a.kind = .write () →
      a.completion ≠ .pending := fun a ha _ => by
    rw [haios', List.mem_singleton] at ha
    rw [ha]
    simp
  have hret := runs_client (e := .ret ()) hpush hprompt hexited (.ret rfl)
  exact ⟨_, hret, rfl, haios', (buffers_safe hret).1⟩

/-- One `Update` returns before its callback starts: the array is gone. -/
theorem update_leaves_buffer :
    ∃ s : RealCephSystem Unit,
      Runs (Step fun _ => transactionRequests [.update "user0".toList]) (fun _ _ => True)
        (new fun _ => loadRequests []) s ∧ ¬ BuffersSafe s := by
  obtain ⟨s, hrun, hexited, haios, hclient⟩ := runs_one_update
  have hrun' : Runs _ (fun _ _ => True) _ s := hrun.mono fun _ _ _ => trivial
  have hcount := runs_client (e := .run ()) hrun' trivial hexited (.run hclient)
  have hpush := runs_client (e := .run ()) hcount trivial hexited (.run rfl)
  have hret := runs_client (e := .ret ()) hpush trivial hexited (.ret rfl)
  refine ⟨_, hret, fun hsafe => ?_⟩
  have hallocated :=
    hsafe.allocated ⟨.write (), 0, .pending⟩ (haios ▸ List.mem_singleton_self _) rfl
  have hframe : Function.update s.db.frame () false () = true := hallocated
  rw [Function.update_self] at hframe
  cases hframe

end RealCephSystem

end YcsbC
