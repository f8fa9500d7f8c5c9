import Mathlib.Data.List.Induction
import YcsbC.Xihu.Pipeline

/-!
# Transfers to and from a block server

A block server stores what a write request carries and answers a read request with what it has
stored. Whatever the order in which the requests of a call are handled and their responses arrive,
a `write` copies a range of memory to a range of blocks, and a `read` copies it back; the responses
of a read are put in their places by the block numbers that they carry.

## Main definitions

* `blockServer`: the server.
* `Transfer.stored`: the memory after some blocks have been read.

## Main results

* `Memory.load_stored`, `Memory.stored_of_forall_ne`: the memory after blocks have been stored.
* `Transfer.writes_of_events`, `Transfer.reads_of_events`: the state during a call.
-/

namespace YcsbC

open XihuClient

/-- A block server. A write request carries the bytes behind its header. -/
inductive blockServer : Server (UInt32 → Block)
  | write (b : UInt32 → Block) (req resp : MsgBuffer) (h : req.type = .Write) :
      blockServer b req (Function.update b req.bid fun j =>
        if sizeofCommonMsg + j < req.dataSize then req.block j else b req.bid j) resp
  | read (b : UInt32 → Block) (req resp : MsgBuffer) (h : req.type = .Read)
      (hbid : resp.bid = req.bid) (hblock : resp.block = b req.bid) : blockServer b req b resp

theorem exists_blockServer (b : UInt32 → Block) (req : MsgBuffer) :
    ∃ b' resp, blockServer b req b' resp := by
  cases htype : req.type with
  | Read => exact ⟨b, ⟨.Read, req.bid, b req.bid, 0⟩, .read b req _ htype rfl rfl⟩
  | Write => exact ⟨_, req, .write b req req htype⟩

/-! ### Blocks in memory -/

namespace Memory

variable {m : Memory}

theorem load_store_self (m : Memory) (addr : UInt64) (block : Block) :
    (m.store addr block).load addr = block := by
  funext j
  have hj : j.val < 3816 := j.isLt
  have hsub : (addr + UInt64.ofNat j - addr).toNat = j := by
    rw [UInt64.add_comm, UInt64.add_sub_cancel, UInt64.toNat_ofNat']
    omega
  rw [load, store, dif_pos (by rw [hsub]; exact j.isLt)]
  exact congrArg block (Fin.ext hsub)

/-- Outside the block nothing is written. -/
theorem store_of_forall_ne {addr a : UInt64} (block : Block)
    (h : ∀ j < blockSize, a ≠ addr + UInt64.ofNat j) : m.store addr block a = m a := by
  refine dif_neg fun hlt => h _ hlt ?_
  rw [UInt64.ofNat_toNat, UInt64.add_comm, UInt64.sub_add_cancel]

end Memory

namespace Transfer

variable {t : Transfer}

/-- Two blocks of a transfer lie apart. -/
theorem addr_add_ne {i j : ℕ} (hij : i ≠ j) (hi : i < 2 ^ 32) (hj : j < 2 ^ 32) {k l : ℕ}
    (hk : k < blockSize) (hl : l < blockSize) :
    t.addr i + UInt64.ofNat k ≠ t.addr j + UInt64.ofNat l := by
  have hk : k < 3816 := hk
  have hl : l < 3816 := hl
  rw [ne_eq, addr, addr, UInt64.add_assoc, UInt64.add_assoc, UInt64.add_right_inj,
    ← UInt64.ofNat_add, ← UInt64.ofNat_add, ← UInt64.toNat_inj, UInt64.toNat_ofNat',
    UInt64.toNat_ofNat', show blockSize = 3816 from rfl, Nat.mod_eq_of_lt (by omega),
    Nat.mod_eq_of_lt (by omega)]
  omega

/-- The memory after the blocks `is` of a transfer have been stored. -/
def stored (t : Transfer) (b : UInt32 → Block) (m : Memory) (is : List ℕ) : Memory :=
  is.foldl (fun m i => m.store (t.addr i) (b (t.bid i))) m

theorem stored_concat (b : UInt32 → Block) (m : Memory) (is : List ℕ) (i : ℕ) :
    t.stored b m (is ++ [i]) = (t.stored b m is).store (t.addr i) (b (t.bid i)) := by
  rw [stored, List.foldl_append]
  rfl

theorem load_stored {b : UInt32 → Block} {m : Memory} {is : List ℕ} (his : ∀ i ∈ is, i < 2 ^ 32)
    {i : ℕ} (hi : i ∈ is) : (t.stored b m is).load (t.addr i) = b (t.bid i) := by
  induction is using List.reverseRecOn with
  | nil => exact absurd hi List.not_mem_nil
  | append_singleton is j ih =>
    rw [stored_concat]
    by_cases hij : i = j
    · rw [hij, Memory.load_store_self]
    · have hmem : i ∈ is := (List.mem_append.1 hi).resolve_right fun h =>
        hij (List.mem_singleton.1 h)
      rw [← ih (fun i hi => his i (List.mem_append_left _ hi)) hmem]
      funext k
      exact Memory.store_of_forall_ne _ fun l hl => addr_add_ne hij (his i hi)
        (his j (List.mem_append_right _ (List.mem_singleton_self j))) k.isLt hl

theorem stored_of_forall_ne {b : UInt32 → Block} {m : Memory} {is : List ℕ} {a : UInt64}
    (ha : ∀ i ∈ is, ∀ j < blockSize, a ≠ t.addr i + UInt64.ofNat j) :
    t.stored b m is a = m a := by
  induction is using List.reverseRecOn with
  | nil => rfl
  | append_singleton is i ih =>
    rw [stored_concat, Memory.store_of_forall_ne _
      (ha i (List.mem_append_right _ (List.mem_singleton_self i)))]
    exact ih fun i hi => ha i (List.mem_append_left _ hi)

/-- The response to a read request finds its place by its block number. -/
theorem receive_of_read (htype : t.type = .Read) (ht : t.InRange) {i : ℕ} (hi : i < t.len.toNat)
    {resp : MsgBuffer} (hbid : resp.bid = t.bid i) (m : Memory) :
    t.receive resp m = m.store (t.addr i) resp.block := by
  have hoffset : ((resp.bid.toNat : ℤ) - t.blockID.toNat) = (i : ℕ) := by
    rw [hbid, toNat_bid ht hi]
    omega
  rw [receive, htype]
  dsimp only
  rw [hoffset, ofInt_natCast, addr, ← UInt64.ofNat_mul]

/-! ### During a call -/

/-- The place of a request in its call. -/
def offset (t : Transfer) (r : Request) : ℕ := r.msg.bid.toNat - t.blockID.toNat

theorem Asks.offset_eq {m : Memory} {i : ℕ} {r : Request} (h : t.Asks m i r.msg)
    (ht : t.InRange) (hi : i < t.len.toNat) : t.offset r = i := by
  rw [offset, h.bid, toNat_bid ht hi]
  omega

/-- The requests that the server has handled. -/
def handled (done : List Request) (x : XihuClient) : List Request :=
  x.rpc.responses.map Prod.fst ++ done

section Events

variable {x x' x₁ : XihuClient} {b b' b₁ : UInt32 → Block} {m : Memory} {before : List Request}
  {new done : List Request} {w : Window Request}

theorem handled_answered {requests : List Request} {r : Request} (resp : MsgBuffer) :
    (handled done (x.answered requests r resp)).Perm (r :: handled done x) := by
  rw [handled, XihuClient.answered]
  simp only [List.map_append, List.map_cons, List.map_nil, List.append_assoc,
    List.singleton_append]
  exact List.perm_middle

theorem handled_handOver {l₁ l₂ : List (Request × MsgBuffer)} {r : Request} {resp : MsgBuffer}
    (hr : x.rpc.responses = l₁ ++ (r, resp) :: l₂) (hx' : x'.rpc.responses = l₁ ++ l₂) :
    (handled (done ++ [r]) x').Perm (handled done x) := by
  rw [handled, handled, hr, hx', List.map_append, List.map_append, List.map_cons,
    ← List.append_assoc]
  refine (List.perm_append_singleton r _).trans ?_
  rw [List.append_assoc (l₁.map Prod.fst) (r :: l₂.map Prod.fst), List.append_assoc]
  exact List.perm_middle.symm

/-- What the server finds when it handles a request. -/
theorem Follows.handles (h : t.Follows m before w x)
    (htracks : w.Tracks t.len.toNat t.depth done) {r : Request} (hr : r ∈ x.rpc.requests) :
    x.reqs r.k = r.msg ∧ ∃ i < t.len.toNat, t.Asks m i r.msg :=
  have hinflight : r ∈ x.inflight := List.mem_append_left _ hr
  ⟨h.pool.pinned r hinflight, h.exists_asks htracks (.inl hinflight)⟩

/-- While blocks are written, the server has the blocks of the requests that it has handled. -/
theorem writes_of_events (ht : t.InRange) (htype : t.type = .Write) (hnew : new.length = t.depth)
    (h : t.Follows m before (.start new) x₁) (hresponses : x₁.rpc.responses = [])
    (hevents : Events blockServer x₁ b₁ done x b) (bid : UInt32) :
    (∃ r ∈ handled done x, r.msg.bid = bid ∧ b bid = r.msg.block) ∨
      (∀ r ∈ handled done x, r.msg.bid ≠ bid) ∧ b bid = b₁ bid := by
  induction hevents with
  | refl =>
    refine .inr ⟨fun r hr => ?_, rfl⟩
    rw [handled, hresponses] at hr
    exact absurd hr List.not_mem_nil
  | @serve done x b b' hevents l₁ l₂ r hr resp hserve ih =>
    obtain ⟨w, hw, htracks⟩ := follows_of_events ht hnew h hevents
    obtain ⟨hmsg, i, hi, hasks⟩ :=
      hw.handles htracks (hr ▸ List.mem_append_right _ List.mem_cons_self)
    rw [hmsg] at hserve
    have hb' : b' = Function.update b r.msg.bid r.msg.block := by
      cases hserve with
      | write _ _ _ hwrite =>
        refine congrArg (Function.update b r.msg.bid) (funext fun j => if_pos ?_)
        rw [hasks.dataSize htype]
        exact Nat.add_lt_add_left j.isLt _
      | read _ _ _ hread =>
        rw [hasks.type, htype] at hread
        cases hread
    simp only [(handled_answered (x := x) resp).mem_iff, List.mem_cons, exists_eq_or_imp,
      forall_eq_or_imp]
    rw [hb', Function.update_apply]
    by_cases hbid : bid = r.msg.bid
    · exact .inl (.inl ⟨hbid.symm, if_pos hbid⟩)
    · rw [if_neg hbid]
      obtain hfound | ⟨hnone, hsame⟩ := ih
      · exact .inl (.inr hfound)
      · exact .inr ⟨⟨Ne.symm hbid, hnone⟩, hsame⟩
  | @complete done x x' b hevents l₁ l₂ r resp hr hcont ih =>
    obtain ⟨w, hw, htracks⟩ := follows_of_events ht hnew h hevents
    obtain ⟨w', -, -, -, hx'⟩ := hw.completed ht htracks hr hcont
    simpa only [(handled_handOver hr hx').mem_iff] using ih

/-- While blocks are read, the server does not change, the responses under way carry its blocks,
and those that have been handed over are in their places in memory. -/
theorem reads_of_events (ht : t.InRange) (htype : t.type = .Read) (hnew : new.length = t.depth)
    (h : t.Follows m before (.start new) x₁) (hresponses : x₁.rpc.responses = [])
    (hevents : Events blockServer x₁ b₁ done x b) :
    b = b₁ ∧ (∀ e ∈ x.rpc.responses, e.2.bid = e.1.msg.bid ∧ e.2.block = b₁ e.1.msg.bid) ∧
      x.mem = t.stored b₁ x₁.mem (done.map t.offset) := by
  induction hevents with
  | refl =>
    refine ⟨rfl, fun e he => ?_, rfl⟩
    rw [hresponses] at he
    exact absurd he List.not_mem_nil
  | @serve done x b b' hevents l₁ l₂ r hr resp hserve ih =>
    obtain ⟨rfl, hunder, hmem⟩ := ih
    obtain ⟨w, hw, htracks⟩ := follows_of_events ht hnew h hevents
    obtain ⟨hmsg, i, hi, hasks⟩ :=
      hw.handles htracks (hr ▸ List.mem_append_right _ List.mem_cons_self)
    rw [hmsg] at hserve
    cases hserve with
    | write _ _ _ hwrite =>
      rw [hasks.type, htype] at hwrite
      cases hwrite
    | read _ _ _ hread hbid hblock =>
      refine ⟨rfl, fun e he => ?_, hmem⟩
      rcases List.mem_append.1 he with he | he
      · exact hunder e he
      · rw [List.mem_singleton.1 he]
        exact ⟨hbid, hblock⟩
  | @complete done x x' b hevents l₁ l₂ r resp hr hcont ih =>
    obtain ⟨rfl, hunder, hmem⟩ := ih
    obtain ⟨w, hw, htracks⟩ := follows_of_events ht hnew h hevents
    have hmemr : (r, resp) ∈ x.rpc.responses := by
      rw [hr]
      exact List.mem_append_right _ List.mem_cons_self
    have hinflight : r ∈ x.inflight := List.mem_append_right _ (List.mem_map_of_mem hmemr)
    obtain ⟨i, hi, hasks⟩ := hw.exists_asks htracks (.inl hinflight)
    obtain ⟨hbid, hblock⟩ := hunder _ hmemr
    obtain ⟨w', -, -, hmem', hx'⟩ := hw.completed ht htracks hr hcont
    refine ⟨rfl, fun e he => hunder e ?_, ?_⟩
    · rw [hx'] at he
      rw [hr]
      rcases List.mem_append.1 he with he | he
      · exact List.mem_append_left _ he
      · exact List.mem_append_right _ (List.mem_cons_of_mem _ he)
    · dsimp only at hbid hblock
      rw [hasks.bid] at hbid hblock
      rw [hmem', receive_of_read htype ht hi hbid, hblock, hmem, List.map_append,
        List.map_singleton, stored_concat, hasks.offset_eq ht hi]

/-- When a call returns, each of its requests has been completed. -/
theorem Follows.returned (h : t.Follows m before w x)
    (htracks : w.Tracks t.len.toNat t.depth done) (hreturns : ¬ x.Waits) :
    x.rpc.responses = [] ∧ ∀ i < t.len.toNat, ∃ r ∈ done, t.Asks m i r.msg := by
  obtain ⟨hinflight, hzero⟩ := h.idle htracks hreturns
  have hdone := (htracks.length_done depth_pos).1 hzero
  have hconserved := htracks.conserved
  rw [hzero, zero_add, Multiset.coe_eq_coe] at hconserved
  refine ⟨List.map_eq_nil_iff.1 (List.append_eq_nil_iff.1 hinflight).2, fun i hi => ?_⟩
  have hlt : i < w.launched.length := by
    rw [← hconserved.length_eq]
    omega
  exact ⟨_, hconserved.mem_iff.2 (List.getElem_mem hlt),
    h.asks i _ (List.getElem?_eq_getElem hlt)⟩

/-- What a `write` has done when it returns. -/
theorem write_returns (ht : t.InRange) (htype : t.type = .Write) (hpool : x.Pool)
    (hidle : x.inflight = []) (hstart : t.start x = some x₁)
    (hevents : Events blockServer x₁ b done x' b') (hreturns : ¬ x'.Waits) :
    x'.mem = x.mem ∧ (∀ i < t.len.toNat, b' (t.bid i) = x.mem.load (t.addr i)) ∧
      ∀ bid, (∀ i < t.len.toNat, bid ≠ t.bid i) → b' bid = b bid := by
  obtain ⟨new, hnew, hfollows, -, hresponses⟩ := t.follows_of_start ht hpool hidle hstart
  obtain ⟨w, hw, htracks⟩ := t.follows_of_events ht hnew hfollows hevents
  obtain ⟨hresponses', hall⟩ := hw.returned htracks hreturns
  have hhandled : handled done x' = done := by
    rw [handled, hresponses', List.map_nil, List.nil_append]
  have hwrites := writes_of_events ht htype hnew hfollows hresponses hevents
  rw [hhandled] at hwrites
  refine ⟨hw.mem htype, fun i hi => ?_, fun bid hbid => ?_⟩
  · obtain ⟨r, hr, hasks⟩ := hall i hi
    obtain ⟨r', hr', hbid, hblock⟩ | ⟨hnone, -⟩ := hwrites (t.bid i)
    · -- both requests are for the same block number, so for the same block
      obtain ⟨j, hj, hasks'⟩ := hw.exists_asks htracks (.inr hr')
      rw [hasks'.bid, ← UInt32.toNat_inj, toNat_bid ht hj, toNat_bid ht hi] at hbid
      obtain rfl : j = i := by omega
      rw [hblock, hasks'.block htype]
    · exact absurd hasks.bid (hnone r hr)
  · obtain ⟨r, hr, hrbid, -⟩ | ⟨-, hsame⟩ := hwrites bid
    · obtain ⟨j, hj, hasks⟩ := hw.exists_asks htracks (.inr hr)
      exact absurd (hrbid.symm.trans hasks.bid) (hbid j hj)
    · exact hsame

/-- What a `read` has done when it returns. -/
theorem read_returns (ht : t.InRange) (htype : t.type = .Read) (hpool : x.Pool)
    (hidle : x.inflight = []) (hstart : t.start x = some x₁)
    (hevents : Events blockServer x₁ b done x' b') (hreturns : ¬ x'.Waits) :
    b' = b ∧ (∀ i < t.len.toNat, x'.mem.load (t.addr i) = b (t.bid i)) ∧
      ∀ a, (∀ y < t.len.toNat * blockSize, a ≠ t.buf + UInt64.ofNat y) → x'.mem a = x.mem a := by
  obtain ⟨new, hnew, hfollows, hmem₁, hresponses⟩ := t.follows_of_start ht hpool hidle hstart
  obtain ⟨w, hw, htracks⟩ := t.follows_of_events ht hnew hfollows hevents
  obtain ⟨-, hall⟩ := hw.returned htracks hreturns
  obtain ⟨rfl, -, hmem⟩ := reads_of_events ht htype hnew hfollows hresponses hevents
  have hrange : t.blockID.toNat + t.len.toNat ≤ 2 ^ 31 := ht
  have hoffsets : ∀ i ∈ done.map t.offset, i < t.len.toNat := by
    intro i hi
    obtain ⟨r, hr, rfl⟩ := List.mem_map.1 hi
    obtain ⟨j, hj, hasks⟩ := hw.exists_asks htracks (.inr hr)
    rwa [hasks.offset_eq ht hj]
  rw [hmem₁] at hmem
  refine ⟨rfl, fun i hi => ?_, fun a ha => ?_⟩
  · obtain ⟨r, hr, hasks⟩ := hall i hi
    have hmemi : i ∈ done.map t.offset := List.mem_map.2 ⟨r, hr, hasks.offset_eq ht hi⟩
    rw [hmem]
    exact load_stored (fun j hj => by have := hoffsets j hj; omega) hmemi
  · rw [hmem]
    refine stored_of_forall_ne fun i hi j hj => ?_
    have hlt := hoffsets i hi
    have hj : j < 3816 := hj
    rw [addr, UInt64.add_assoc, ← UInt64.ofNat_add]
    refine ha _ ?_
    rw [show blockSize = 3816 from rfl]
    omega

end Events

end Transfer

/-- **Transfers move the right data.** After any calls, when a `write` returns, the blocks of its
range are those of the source, and all other blocks and the memory are as before. When a `read`
returns, the destination holds the blocks of its range, and no other byte of the memory and no
block has changed. So a `read` that follows a `write` of the same range gets back what was
written, whatever has become of the source in the meantime. -/
theorem transfer_moves_data (reqs resps : ℕ → MsgBuffer) (mem : Memory) (b₀ : UInt32 → Block)
    {ts : List Transfer} {x x₁ x' : XihuClient} {b b' : UInt32 → Block} {done : List Request}
    (hsessions : Sessions blockServer (init reqs resps mem) b₀ ts x b) {t : Transfer}
    (ht : t.InRange) (hstart : t.start x = some x₁)
    (hevents : Events blockServer x₁ b done x' b') (hreturns : ¬ x'.Waits) :
    (t.type = .Write → x'.mem = x.mem ∧
        (∀ i < t.len.toNat, b' (t.bid i) = x.mem.load (t.addr i)) ∧
        ∀ bid, (∀ i < t.len.toNat, bid ≠ t.bid i) → b' bid = b bid) ∧
      (t.type = .Read → b' = b ∧
        (∀ i < t.len.toNat, x'.mem.load (t.addr i) = b (t.bid i)) ∧
        ∀ a, (∀ y < t.len.toNat * blockSize, a ≠ t.buf + UInt64.ofNat y) →
          x'.mem a = x.mem a) ∧
      (t.type = .Write → ∀ (dst : UInt64) (m : Memory) x₂ done₂ x₃ b₃,
        (⟨.Read, t.blockID, t.len, dst⟩ : Transfer).start { x' with mem := m } = some x₂ →
        Events blockServer x₂ b' done₂ x₃ b₃ → ¬ x₃.Waits →
        ∀ i < t.len.toNat,
          x₃.mem.load (dst + UInt64.ofNat (i * blockSize)) = x.mem.load (t.addr i)) := by
  obtain ⟨hpool, hidle⟩ := idle_of_sessions (pool_init reqs resps mem) rfl hsessions
  refine ⟨fun htype => t.write_returns ht htype hpool hidle hstart hevents hreturns,
    fun htype => t.read_returns ht htype hpool hidle hstart hevents hreturns, ?_⟩
  intro htype dst m x₂ done₂ x₃ b₃ hstart₂ hevents₂ hreturns₂ i hi
  obtain ⟨-, hblocks, -⟩ := t.write_returns ht htype hpool hidle hstart hevents hreturns
  obtain ⟨hpool', hidle'⟩ := idle_of_sessions (pool_init reqs resps mem) rfl
    ((hsessions.call t ht hstart hevents hreturns).memory m)
  obtain ⟨-, hread, -⟩ := Transfer.read_returns (t := ⟨.Read, t.blockID, t.len, dst⟩) ht rfl hpool'
    hidle' hstart₂ hevents₂ hreturns₂
  exact (hread i hi).trans (hblocks i hi)

/-- A `write` of the same blocks. -/
def writeForty : Transfer := ⟨.Write, 7, 40, 0⟩

theorem inRange_writeForty : writeForty.InRange := by
  show _ ≤ _
  decide

/-- A new client writes forty blocks of ones over zeros, and reads them back over twos. -/
theorem transfer_moves_data_forty_blocks :
    ∃ x₁ done x' b' x₂ done₂ x₃ b₃, writeForty.start (newClient fun _ => 1) = some x₁ ∧
      Events blockServer x₁ (fun _ _ => 0) done x' b' ∧ ¬ x'.Waits ∧
      (b' 46 = fun _ => 1) ∧ (b' 47 = fun _ => 0) ∧
      readForty.start { x' with mem := fun _ => 2 } = some x₂ ∧
      Events blockServer x₂ b' done₂ x₃ b₃ ∧ ¬ x₃.Waits ∧
      x₃.mem.load (UInt64.ofNat (39 * blockSize)) = fun _ => 1 := by
  have hpool := pool_init (fun _ => ⟨.Read, 0, fun _ => 0, 0⟩) (fun _ => ⟨.Read, 0, fun _ => 0, 0⟩)
    (fun _ => 1)
  obtain ⟨x₁, new, hstart, hnew, hfollows, -⟩ := Transfer.exists_start inRange_writeForty hpool rfl
  obtain ⟨done, x', b', hevents, hreturns⟩ :=
    Transfer.exists_return inRange_writeForty exists_blockServer (fun _ _ => 0) hnew hfollows
  obtain ⟨hpool', hidle⟩ := idle_of_sessions hpool rfl
    ((Sessions.refl.call writeForty inRange_writeForty hstart hevents hreturns).memory fun _ => 2)
  obtain ⟨x₂, new₂, hstart₂, hnew₂, hfollows₂, -⟩ :=
    Transfer.exists_start inRange_readForty hpool' hidle
  obtain ⟨done₂, x₃, b₃, hevents₂, hreturns₂⟩ :=
    Transfer.exists_return inRange_readForty exists_blockServer b' hnew₂ hfollows₂
  obtain ⟨hwrite, -, hback⟩ :=
    transfer_moves_data _ _ _ (fun _ _ => 0) .refl inRange_writeForty hstart hevents hreturns
  obtain ⟨-, hblocks, hframe⟩ := hwrite rfl
  exact ⟨x₁, done, x', b', x₂, done₂, x₃, b₃, hstart, hevents, hreturns, hblocks 39 (by decide),
    hframe 47 (by decide), hstart₂, hevents₂, hreturns₂,
    hback rfl 0 _ _ _ _ _ hstart₂ hevents₂ hreturns₂ 39 (by decide)⟩

end YcsbC
