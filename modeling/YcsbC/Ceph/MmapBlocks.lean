import YcsbC.Ceph.Blocks
import YcsbC.Ceph.MmapCounters

/-!
# The mapped file as a block store

With keys from `BuildKeyName` and a mapping of at least `N` blocks, each call of the mapped back end
finds the block of its number: the number is read back from the key, the offset does not overflow,
and the block lies inside the mapping. So every call returns, and at any time the file holds what
the calls have written in the order in which they were served.

## Main results

* `MmapCephDB.perform_stored`: what one call does to the file.
* `CephSystem.block_store`: the file in every run.
-/

namespace YcsbC

open CoreWorkload

namespace MmapCephDB

theorem toInt_blockOffset {n : ℕ} (hn : n < 2 ^ 31) : (blockOffset n).toInt = n * 4096 := by
  have hn' : (n : ℤ) < 2 ^ 31 := by exact_mod_cast hn
  have hnumber : (Int64.ofInt n).toInt = n := Int64.toInt_ofInt_of_le (by omega) (by omega)
  have hone : (1 * Int64.ofInt n : Int64) = Int64.ofInt n := Int64.one_mul _
  have hblock : (4096 : Int64).toInt = 4096 := rfl
  rw [blockOffset, hone, Int64.toInt_mul, hnumber, hblock, Int.bmod_eq_of_le (by omega) (by omega)]

variable {N n : UInt64} {file : Bytes} {history : List CephCall} {c : CephCall} {s : MmapCephDB}

theorem inside_blockOffset (h : Stored 4096 N file history s.file)
    (hN : N.toNat * 4096 ≤ file.length) (hrange : N.toNat < 2 ^ 31) (hn : n < N) :
    Inside s.file (blockOffset n.toNat) ∧
      (blockOffset n.toNat).toInt.toNat = n.toNat * 4096 := by
  have hn' : n.toNat < N.toNat := UInt64.lt_iff_toNat_lt.1 hn
  have hfits := h.fits hN hn
  have hoffset := toInt_blockOffset (n := n.toNat) (by omega)
  refine ⟨⟨?_, ?_⟩, ?_⟩ <;> rw [hoffset] <;> omega

/-- One call in the transaction phase. -/
theorem perform_stored (h : Stored 4096 N file history s.file) (hphase : s.phase = .transaction)
    (hN : N.toNat * 4096 ≤ file.length) (hrange : N.toNat < 2 ^ 31) (hn : n < N)
    (hkey : c.key = userKey n) :
    ∃ s', perform c s = (.ok .kOK, s') ∧ s'.phase = .transaction ∧
      Stored 4096 N file (history ++ [c]) s'.file := by
  have hn' : n.toNat < N.toNat := UInt64.lt_iff_toNat_lt.1 hn
  have hreal : realKey (userKey n) = some (n.toNat : ℤ) := realKey_userKey (by omega)
  obtain ⟨hinside, hoffset⟩ := inside_blockOffset h hN hrange hn
  have hset : ∀ (t : MmapCephDB) b, t.file = s.file → writeBlock (userKey n) b t =
      .ok { t with file := Bytes.fill s.file (n.toNat * 4096) 4096 b } := fun t b ht => by
    rw [writeBlock_of_realKey hreal, memset, ht, if_pos hinside, hoffset]
  cases c with
  | read key =>
    obtain rfl : key = userKey n := hkey
    refine ⟨s.countOp.pushTime .readTime, ?_, hphase, h.skip fun _ => rfl⟩
    have hcopy : readBlock (userKey n) s.countOp =
        .ok (Bytes.slice s.file (blockOffset n.toNat).toInt.toNat 4096) := by
      rw [readBlock_of_realKey hreal, memcpy]
      exact if_pos hinside
    simp only [perform, read, hcopy]
  | update key =>
    obtain rfl : key = userKey n := hkey
    refine ⟨CephDB.pushTime .updateTime
      { s.countOp with file := Bytes.fill s.file (n.toNat * 4096) 4096 'a'.toUInt8 }, ?_, hphase,
      h.write hN hn rfl (if_pos rfl)⟩
    simp only [perform, update, hset s.countOp _ rfl]
  | insert key =>
    obtain rfl : key = userKey n := hkey
    refine ⟨CephDB.pushTime .insertTime
      { s.countOp with file := Bytes.fill s.file (n.toNat * 4096) 4096 'b'.toUInt8 }, ?_, hphase,
      h.write hN hn rfl (if_pos rfl)⟩
    have hcount : s.countOp.phase = .transaction := hphase
    simp only [perform, insert, hphase, reduceCtorEq, or_self, if_false, if_true,
      hset s.countOp _ rfl, hcount]
  | scan key => exact ⟨s.countOp.pushTime .scanTime, rfl, hphase, h.skip fun _ => rfl⟩
  | delete key => exact ⟨s.countOp.pushTime .deleteTime, rfl, hphase, h.skip fun _ => rfl⟩

end MmapCephDB

namespace CephSystem

variable {ι : Type} [DecidableEq ι] {N : UInt64} {file : Bytes} {s s' : CephSystem ι}
  {e : CephMove ι} {keys : ι → List Str} {calls : ι → List CephCall}
  {ok : CephSystem ι → CephMove ι → Prop}

/-- After the load: every thread goes on with its calls, and the file holds what the calls have
written. -/
structure Kept (N : UInt64) (file : Bytes) (calls : ι → List CephCall) (s : CephSystem ι) :
    Prop where
  client : ∀ i, ∃ rs, s.client i = .idle rs ∧ Ahead (calls i) s.db.phase rs
  stored : Stored 4096 N file s.history s.db.file

omit [DecidableEq ι] in
/-- The next request of a thread returns. -/
theorem Kept.serve (h : Kept N file calls s) (hN : N.toNat * 4096 ≤ file.length)
    (hrange : N.toNat < 2 ^ 31) (hcalls : ∀ i, ∀ c ∈ calls i, ∃ n < N, c.key = userKey n) {i : ι}
    {r : CephRequest} {rs : List CephRequest} (hi : s.client i = .idle (r :: rs)) :
    ∃ db, MmapCephDB.serve r s.db = (.ok .kOK, db) ∧
      Stored 4096 N file (s.history ++ r.calls) db.file := by
  obtain ⟨rs', hrs', hahead⟩ := h.client i
  obtain rfl : r :: rs = rs' := CephThread.idle.inj (hi.symm.trans hrs')
  obtain flag | c := r
  · refine ⟨s.db.init flag, rfl, ?_⟩
    rw [CephRequest.calls, List.append_nil]
    exact h.stored
  · obtain ⟨n, hn, hkey⟩ := hcalls i c (hahead.mem List.mem_cons_self)
    obtain ⟨db, hdb, -, hstored⟩ :=
      MmapCephDB.perform_stored h.stored hahead.cons.2.1 hN hrange hn hkey
    exact ⟨db, hdb, hstored⟩

theorem Kept.step {transactions : ι → List CephRequest} (h : Kept N file calls s)
    (hN : N.toNat * 4096 ≤ file.length) (hrange : N.toNat < 2 ^ 31)
    (hcalls : ∀ i, ∀ c ∈ calls i, ∃ n < N, c.key = userKey n) (hstage : s.stage ≠ .loading)
    (hstep : Step transactions s e s') : Kept N file calls s' := by
  cases hstep with
  | @serve i r rs st db hi hr =>
    obtain ⟨rs', hrs', hahead⟩ := h.client i
    obtain rfl : r :: rs = rs' := CephThread.idle.inj (hi.symm.trans hrs')
    obtain ⟨-, hafter, hahead'⟩ := hahead.cons
    obtain ⟨-, hphase, -⟩ := MmapCephDB.serve_ok hr
    refine ⟨fun j => ?_, ?_⟩
    · show ∃ rs', Function.update s.client i (.idle rs) j = .idle rs' ∧ Ahead (calls j) db.phase rs'
      rw [hphase, hafter]
      by_cases hj : j = i
      · rw [hj, Function.update_self]
        exact ⟨rs, rfl, hahead'⟩
      · rw [Function.update_of_ne hj]
        obtain ⟨rs', hrs', hother⟩ := h.client j
        exact ⟨rs', hrs', hother.of_transaction⟩
    · obtain ⟨db', hdb', hstored⟩ := h.serve hN hrange hcalls hi
      cases hdb'.symm.trans hr
      exact hstored
  | fail hi hr =>
    obtain ⟨db', hdb', -⟩ := h.serve hN hrange hcalls hi
    cases hdb'.symm.trans hr
  | joinLoad hload hi => exact absurd hload hstage
  | handleAllData _ hi => exact ⟨h.client, h.stored⟩

/-- The calls and the file in a run. -/
theorem kept [Fintype ι] (hN : N.toNat * 4096 ≤ file.length) (hrange : N.toNat < 2 ^ 31)
    (hcalls : ∀ i, ∀ c ∈ calls i, ∃ n < N, c.key = userKey n)
    (h : Runs (Step fun i => transactionRequests (calls i)) ok
      (new file fun i => loadRequests (keys i)) s) (hs : s.stage ≠ .loading) :
    Kept N file calls s := by
  revert hs
  refine h.invariant (I := fun s => s.stage ≠ .loading → Kept N file calls s)
    (fun hs => absurd rfl hs) ?_
  intro s e s' hrun ih _ hstep hs'
  by_cases hs : s.stage = .loading
  · -- the load has left the file as it was
    cases hstep with
    | joinLoad hload hi =>
      refine ⟨fun i => ⟨_, rfl, .inl rfl⟩, ?_⟩
      have hfile : s.db.file = file := by
        rw [((counters hrun).1 hload).1]
        rfl
      show Stored 4096 N file [] s.db.file
      rw [hfile]
      exact .nil 4096 N file
    | serve _ _ => exact absurd hs hs'
    | fail _ _ => exact absurd hs hs'
    | handleAllData hstage _ => cases hs.symm.trans hstage
  · exact (ih hs).step hN hrange hcalls hs hstep

/-- In such a run a thread that has a request left can be served. -/
theorem exists_serve [Fintype ι] (hN : N.toNat * 4096 ≤ file.length) (hrange : N.toNat < 2 ^ 31)
    (hcalls : ∀ i, ∀ c ∈ calls i, ∃ n < N, c.key = userKey n) (hok : ∀ s e, ok s e)
    (h : Runs (Step fun i => transactionRequests (calls i)) ok
      (new file fun i => loadRequests (keys i)) s) (hs : s.stage ≠ .loading) {i : ι}
    {r : CephRequest} {rs : List CephRequest} (hi : s.client i = .idle (r :: rs)) :
    ∃ db, Runs (Step fun i => transactionRequests (calls i)) ok
      (new file fun i => loadRequests (keys i)) { s with
        db := db
        client := Function.update s.client i (.idle rs)
        history := s.history ++ r.calls } := by
  obtain ⟨db, hdb, -⟩ := (kept hN hrange hcalls h hs).serve hN hrange hcalls hi
  exact ⟨db, h.step (hok _ _) (.serve hi hdb)⟩

/-- **The mapped file is a block store.** After the load, in every run with keys from
`BuildKeyName`, no call has failed, so none has accessed a byte outside the mapping; each block
holds what the last write that names its number has put there, or its original bytes; and all other
bytes are the original ones. -/
theorem block_store [Fintype ι] {w : CoreWorkload} (hpos : 1 ≤ w.recordCount)
    (hrange : w.recordCount.toNat < 2 ^ 31) (hfile : w.recordCount.toNat * 4096 ≤ file.length)
    (hcalls : ∀ i, ∀ c ∈ calls i, ∃ keyNum, c.key = w.buildKeyName keyNum)
    (h : Runs (Step fun i => transactionRequests (calls i)) (fun _ _ => True)
      (new file fun i => loadRequests (keys i)) s) (hs : s.stage ≠ .loading) :
    (∀ i f, s.client i ≠ .failed f) ∧ s.db.file.length = file.length ∧
      (∀ n < w.recordCount, Bytes.slice s.db.file (n.toNat * 4096) 4096 =
        match lastWrite n s.history with
        | some b => List.replicate 4096 b
        | none => Bytes.slice file (n.toNat * 4096) 4096) ∧
      ∀ k, (∀ n < w.recordCount, lastWrite n s.history ≠ none →
        k < n.toNat * 4096 ∨ n.toNat * 4096 + 4096 ≤ k) → s.db.file[k]? = file[k]? := by
  have hnamed : ∀ i, ∀ c ∈ calls i, ∃ n < w.recordCount, c.key = userKey n := fun i c hc => by
    obtain ⟨keyNum, hkey⟩ := hcalls i c hc
    exact ⟨_, keyNumber_lt hpos keyNum, hkey⟩
  have hkept := kept hfile hrange hnamed h hs
  refine ⟨fun i f hf => ?_, hkept.stored.length, fun n hn => ?_, fun k hk => ?_⟩
  · obtain ⟨rs, hrs, -⟩ := hkept.client i
    cases hrs.symm.trans hf
  · rw [hkept.stored.slice_eq hfile hn]
    cases lastWrite n s.history <;> rfl
  · exact hkept.stored.getElem?_of_not_written (by omega) hk

/-- One `Update` of the only block of a file of zeros. -/
theorem block_store_one_update :
    ∃ s : CephSystem Unit,
      Runs (Step fun _ => transactionRequests [.update (userKey 0)]) (fun _ _ => True)
        (new (List.replicate 4096 0) fun _ => loadRequests []) s ∧
      s.client () = .idle [] ∧
      Bytes.slice s.db.file 0 4096 = List.replicate 4096 'a'.toUInt8 := by
  have hfile : (1 : UInt64).toNat * 4096 ≤ (List.replicate 4096 (0 : UInt8)).length := by
    rw [List.length_replicate]
    exact le_rfl
  generalize List.replicate 4096 (0 : UInt8) = file at hfile ⊢
  have hnew : Runs (Step fun _ : Unit => transactionRequests [.update (userKey 0)])
    (fun _ _ => True) (new file fun _ => loadRequests []) (new file fun _ => loadRequests []) :=
    .start
  have hinit := hnew.step trivial (.serve (i := ()) rfl rfl)
  have hjoin := hinit.step trivial (.joinLoad rfl fun _ => rfl)
  have hinit' := hjoin.step trivial (.serve (i := ()) rfl rfl)
  obtain ⟨db, hdb, -⟩ := MmapCephDB.perform_stored (c := .update (userKey 0))
    (s := CephDB.init false (CephDB.init true (.new file)))
    (.nil 4096 1 file) rfl hfile (by decide) (by decide) rfl
  have hupdate := hinit'.step trivial (.serve (i := ()) (r := .call (.update (userKey 0))) rfl hdb)
  have hstored := (block_store (w := oneRecord) (by decide) (by decide) hfile
    (fun _ c hc => ⟨0, by rw [List.mem_singleton.1 hc]; rfl⟩) hupdate (by simp)).2.2.1 0 (by decide)
  exact ⟨_, hupdate, rfl, hstored⟩

end CephSystem

end YcsbC
