import YcsbC.Ceph.MmapBlocks
import YcsbC.Ceph.StreamCephDB

/-!
# The two builds of `CephDB`

Both builds seek to the block of a key before they write. The mapping is written in place; the
stream was opened with `std::ios::app`, so each of its writes goes to the end of the file and the
blocks keep their original bytes. The stream build computes the offset in `int`: the block of the
number `n` is taken for the block `n % 2^20`, and when this offset is negative the seek fails, and
with it every call up to the next `Flush` that opens the file again. So the builds agree on a file
only if the writes put nothing new into it and the blocks that are mixed up are equal.

## Main definitions

* `MmapCephDB.runCalls`, `StreamCephDB.runCalls`: a sequence of calls in the transaction phase.
* `VariantsAgree`: the same blocks, and the same bytes for a following `Read`.
* `SeekFailed`: the stream is in its error state.

## Main results

* `variants_agree_iff`: when the builds agree.
* `insert_into_stream`: a call after which they do not.
-/

namespace YcsbC

open CoreWorkload

/-- The call writes a block. -/
def CephCall.IsWrite : CephCall → Prop
  | update _ => True
  | insert _ => True
  | _ => False

namespace MmapCephDB

/-- A sequence of calls after `Init(false)`. -/
def runCalls (file : Bytes) (calls : List CephCall) : MmapCephDB :=
  calls.foldl (fun s c => (perform c s).2) (CephDB.init false (.new file))

variable {N : UInt64} {file : Bytes} {calls : List CephCall}

theorem runCalls_stored (hN : N.toNat * 4096 ≤ file.length) (hrange : N.toNat < 2 ^ 31)
    (hcalls : ∀ c ∈ calls, ∃ n < N, c.key = userKey n) :
    (runCalls file calls).phase = .transaction ∧
      Stored 4096 N file calls (runCalls file calls).file := by
  induction calls using List.reverseRecOn with
  | nil => exact ⟨rfl, .nil 4096 N file⟩
  | append_singleton cs c ih =>
    obtain ⟨hphase, hstored⟩ := ih fun c' hc' => hcalls c' (List.mem_append_left _ hc')
    obtain ⟨n, hn, hkey⟩ := hcalls c (List.mem_append_right _ (List.mem_singleton_self c))
    obtain ⟨s', hs', hphase', hstored'⟩ := perform_stored hstored hphase hN hrange hn hkey
    have hrun : runCalls file (cs ++ [c]) = s' := by
      rw [runCalls, List.foldl_append]
      exact congrArg Prod.snd hs'
    rw [hrun]
    exact ⟨hphase', hstored'⟩

theorem readBlock_countOp {s : MmapCephDB} (h : Stored 4096 N file calls s.file)
    (hN : N.toNat * 4096 ≤ file.length) (hrange : N.toNat < 2 ^ 31) {n : UInt64} (hn : n < N) :
    readBlock (userKey n) s.countOp = .ok (Bytes.slice s.file (n.toNat * 4096) 4096) := by
  have hn' : n.toNat < N.toNat := UInt64.lt_iff_toNat_lt.1 hn
  obtain ⟨hinside, hoffset⟩ := inside_blockOffset h hN hrange hn
  rw [readBlock_of_realKey (realKey_userKey (by omega)), memcpy, ← hoffset]
  exact if_pos hinside

end MmapCephDB

namespace StreamCephDB

/-- The offset is negative when its 32 bits have the sign bit, else it is the one of a lower block.
-/
theorem streamOffset_eq {n : ℕ} (hn : n < 2 ^ 31) :
    (streamOffset n < 0 ↔ 2 ^ 19 ≤ n % 2 ^ 20) ∧
      (n % 2 ^ 20 < 2 ^ 19 → (streamOffset n).toNat = n % 2 ^ 20 * 4096) := by
  have hn' : (n : ℤ) < 2 ^ 31 := by exact_mod_cast hn
  have hnumber : (Int32.ofInt n).toInt = n := Int32.toInt_ofInt_of_le (by omega) (by omega)
  have hblock : (4096 : Int32).toInt = 4096 := rfl
  have hoffset : streamOffset n = ((n : ℤ) * 4096).bmod (2 ^ 32) := by
    rw [streamOffset, Int32.toInt_mul, hnumber, hblock]
  rw [hoffset, Int.bmod_def]
  omega

/-- A sequence of calls after `Init(false)`. -/
def runCalls (file : Bytes) (calls : List CephCall) : StreamCephDB :=
  calls.foldl (fun s c => (perform c s).2) (CephDB.init false (.new (.openFile file)))

/-- The seek of the call fails. -/
def SeekFails (c : CephCall) : Prop := ∃ n : UInt64, c.key = userKey n ∧ 2 ^ 19 ≤ n.toNat % 2 ^ 20

/-- A seek has failed since the stream was last opened, which happens after every tenth call. -/
def SeekFailed (calls : List CephCall) : Prop :=
  ∃ c ∈ calls.drop (calls.length - calls.length % 10), SeekFails c

theorem seekFails_iff {c : CephCall} {n : UInt64} (hkey : c.key = userKey n) :
    SeekFails c ↔ 2 ^ 19 ≤ n.toNat % 2 ^ 20 := by
  refine ⟨fun ⟨m, hm, hneg⟩ => ?_, fun hneg => ⟨n, hkey, hneg⟩⟩
  rwa [userKey_injective (hkey.symm.trans hm)]

/-- The tenth call opens the stream again, the others leave a failure as it is. -/
theorem seekFailed_concat (calls : List CephCall) (c : CephCall) :
    SeekFailed (calls ++ [c]) ↔
      (calls.length + 1) % 10 ≠ 0 ∧ (SeekFailed calls ∨ SeekFails c) := by
  have hlength : (calls ++ [c]).length = calls.length + 1 := by simp
  rw [SeekFailed, hlength]
  by_cases hten : (calls.length + 1) % 10 = 0
  · have hdrop : (calls ++ [c]).drop (calls.length + 1 - (calls.length + 1) % 10) = [] :=
      List.drop_eq_nil_of_le (by omega)
    rw [hdrop]
    simp [hten]
  · have hstart : calls.length + 1 - (calls.length + 1) % 10 =
        calls.length - calls.length % 10 := by
      omega
    rw [hstart, List.drop_append_of_le_length (by omega), SeekFailed]
    simp only [List.mem_append, List.mem_singleton, or_and_right, exists_or, exists_eq_left,
      ne_eq, hten, not_false_eq_true, true_and]

variable {s : StreamCephDB} {c : CephCall} {n : UInt64}

/-- From `s` to `s'` a write of the number `n` has been counted and appended, unless the stream had
failed or the seek fails. -/
structure Appended (n : UInt64) (s s' : StreamCephDB) : Prop where
  phase : s'.phase = s.phase
  ops : s'.ops = s.ops + 1
  bytes : ∃ tail, s'.file.bytes = s.file.bytes ++ tail
  failbit : s'.file.failbit ↔
    (s.ops + 1) % 10 ≠ 0 ∧ (s.file.failbit ∨ 2 ^ 19 ≤ n.toNat % 2 ^ 20)

theorem appended_flush (hn : n.toNat < 2 ^ 31) (b : UInt8) (v : TimeVector) :
    Appended n s ((flush { s.countOp with
      file := (s.file.seek (streamOffset n.toNat)).write (List.replicate 4096 b) }).pushTime
        v) := by
  obtain ⟨hbytes, hfail⟩ := FStream.write_seek (List.replicate 4096 b) (streamOffset n.toNat) s.file
  generalize (s.file.seek (streamOffset n.toNat)).write (List.replicate 4096 b) = f at hbytes hfail
  rw [(streamOffset_eq hn).1] at hfail
  have htail : ∃ tail, f.bytes = s.file.bytes ++ tail := by
    rw [hbytes]
    split_ifs
    · exact ⟨[], (List.append_nil _).symm⟩
    · exact ⟨_, rfl⟩
  by_cases hten : (s.ops + 1) % 10 = 0
  · have hflush : flush { s.countOp with file := f } = { s.countOp with file := f.reopen } :=
      if_pos hten
    rw [hflush]
    exact ⟨rfl, rfl, htail, ⟨nofun, fun h => absurd hten h.1⟩⟩
  · have hflush : flush { s.countOp with file := f } = { s.countOp with file := f } := if_neg hten
    rw [hflush]
    exact ⟨rfl, rfl, htail, ⟨fun h => ⟨hten, hfail.1 h⟩, fun h => hfail.2 h.2⟩⟩

theorem perform_write (hphase : s.phase = .transaction) (hc : c.IsWrite) (hkey : c.key = userKey n)
    (hn : n.toNat < 2 ^ 31) : Appended n s (perform c s).2 := by
  have hwrite : ∀ b, writeBlock (userKey n) b s.countOp = .ok { s.countOp with
      file := (s.file.seek (streamOffset n.toNat)).write (List.replicate 4096 b) } := fun b => by
    rw [writeBlock, parseKey, realKey_userKey hn]
    rfl
  cases c with
  | update key =>
    obtain rfl : key = userKey n := hkey
    have hupdate := appended_flush (s := s) hn 'a'.toUInt8 .updateTime
    simpa only [perform, update, hwrite] using hupdate
  | insert key =>
    obtain rfl : key = userKey n := hkey
    have hcount : s.countOp.phase = .transaction := hphase
    have hinsert := appended_flush (s := s) hn 'b'.toUInt8 .insertTime
    simpa only [perform, insert, hphase, if_true, hwrite, hcount] using hinsert
  | _ => exact hc.elim

/-- After a sequence of writes the file has grown at its end only. -/
theorem runCalls_appended {N : UInt64} (file : Bytes) {calls : List CephCall}
    (hrange : N.toNat < 2 ^ 31)
    (hcalls : ∀ c ∈ calls, c.IsWrite ∧ ∃ n < N, c.key = userKey n) :
    (runCalls file calls).phase = .transaction ∧ (runCalls file calls).ops = calls.length ∧
      (∃ tail, (runCalls file calls).file.bytes = file ++ tail) ∧
      ((runCalls file calls).file.failbit ↔ SeekFailed calls) := by
  induction calls using List.reverseRecOn with
  | nil =>
    refine ⟨rfl, rfl, ⟨[], (List.append_nil _).symm⟩, nofun, ?_⟩
    rintro ⟨c, hc, -⟩
    cases hc
  | append_singleton cs c ih =>
    obtain ⟨hphase, hops, ⟨tail, hbytes⟩, hfail⟩ :=
      ih fun c' hc' => hcalls c' (List.mem_append_left _ hc')
    obtain ⟨hc, n, hn, hkey⟩ := hcalls c (List.mem_append_right _ (List.mem_singleton_self c))
    have hn' : n.toNat < N.toNat := UInt64.lt_iff_toNat_lt.1 hn
    have hrun : runCalls file (cs ++ [c]) = (perform c (runCalls file cs)).2 := by
      rw [runCalls, List.foldl_append]
      rfl
    obtain ⟨hphase', hops', ⟨tail', hbytes'⟩, hfail'⟩ := perform_write hphase hc hkey (by omega)
    rw [hrun]
    refine ⟨hphase'.trans hphase, ?_, ⟨tail ++ tail', ?_⟩, ?_⟩
    · rw [hops', hops, List.length_append]
      rfl
    · rw [hbytes', hbytes, List.append_assoc]
    · rw [hfail', hops, hfail, seekFailed_concat, seekFails_iff hkey]

theorem readBlock_countOp (hn : n.toNat < 2 ^ 31) :
    (readBlock (userKey n) s.countOp).map Prod.fst =
      .ok (buffer ((s.file.seek (streamOffset n.toNat)).read 4096).1) := by
  rw [readBlock, parseKey, realKey_userKey hn]
  rfl

end StreamCephDB

/-- The builds hold the same blocks, and a following `Read` copies the same bytes. -/
structure VariantsAgree (N : UInt64) (mapped : MmapCephDB) (streamed : StreamCephDB) : Prop where
  block : ∀ n < N, Bytes.slice streamed.file.bytes (n.toNat * 4096) 4096 =
    Bytes.slice mapped.file (n.toNat * 4096) 4096
  read : ∀ n < N, (StreamCephDB.readBlock (userKey n) streamed.countOp).map Prod.fst =
    MmapCephDB.readBlock (userKey n) mapped.countOp

/-- Each block that the calls write held before what its last write puts into it. -/
def WritesNothingNew (N : UInt64) (file : Bytes) (calls : List CephCall) : Prop :=
  ∀ n < N, ∀ b, lastWrite n calls = some b →
    Bytes.slice file (n.toNat * 4096) 4096 = List.replicate 4096 b

/-- Each block equals the block that the stream build reads for its number: the block of the number
modulo `2^20`, or zeros when the seek fails or an earlier one has failed. -/
def OffsetsHarmless (N : UInt64) (file : Bytes) (calls : List CephCall) : Prop :=
  ∀ n < N,
    (StreamCephDB.SeekFailed calls ∨ 2 ^ 19 ≤ n.toNat % 2 ^ 20 →
      Bytes.slice file (n.toNat * 4096) 4096 = List.replicate 4096 0) ∧
    (¬ StreamCephDB.SeekFailed calls → n.toNat % 2 ^ 20 < 2 ^ 19 →
      Bytes.slice file (n.toNat * 4096) 4096 =
        Bytes.slice file (n.toNat % 2 ^ 20 * 4096) 4096)

section Agree

variable {N n : UInt64} {file : Bytes} {calls : List CephCall}

theorem block_le (hfile : file.length = N.toNat * 4096) {m : ℕ} (hm : m < N.toNat) :
    m * 4096 + 4096 ≤ file.length := by
  omega

/-- The stream build has left a block as it was. -/
theorem slice_streamed (hfile : file.length = N.toNat * 4096) (hrange : N.toNat < 2 ^ 31)
    (hcalls : ∀ c ∈ calls, c.IsWrite ∧ ∃ n < N, c.key = userKey n) {m : ℕ} (hm : m < N.toNat) :
    Bytes.slice (StreamCephDB.runCalls file calls).file.bytes (m * 4096) 4096 =
      Bytes.slice file (m * 4096) 4096 := by
  obtain ⟨-, -, ⟨tail, hbytes⟩, -⟩ := StreamCephDB.runCalls_appended file hrange hcalls
  rw [hbytes]
  exact Bytes.slice_append tail (block_le hfile hm)

theorem read_streamed (hfile : file.length = N.toNat * 4096) (hrange : N.toNat < 2 ^ 31)
    (hcalls : ∀ c ∈ calls, c.IsWrite ∧ ∃ n < N, c.key = userKey n) (hn : n < N) :
    (StreamCephDB.SeekFailed calls ∨ 2 ^ 19 ≤ n.toNat % 2 ^ 20 →
      (StreamCephDB.readBlock (userKey n) (StreamCephDB.runCalls file calls).countOp).map Prod.fst =
        .ok (List.replicate 4096 0)) ∧
    (¬ StreamCephDB.SeekFailed calls → n.toNat % 2 ^ 20 < 2 ^ 19 →
      (StreamCephDB.readBlock (userKey n) (StreamCephDB.runCalls file calls).countOp).map Prod.fst =
        .ok (Bytes.slice file (n.toNat % 2 ^ 20 * 4096) 4096)) := by
  have hn' : n.toNat < N.toNat := UInt64.lt_iff_toNat_lt.1 hn
  have hnumber : n.toNat < 2 ^ 31 := by omega
  obtain ⟨-, -, -, hfail⟩ := StreamCephDB.runCalls_appended file hrange hcalls
  obtain ⟨hneg, hoffset⟩ := StreamCephDB.streamOffset_eq hnumber
  rw [StreamCephDB.readBlock_countOp hnumber, FStream.read_seek]
  refine ⟨fun h => ?_, fun hok hsmall => ?_⟩
  · rw [if_pos (h.imp hfail.2 hneg.2)]
    rfl
  · have hm : n.toNat % 2 ^ 20 < N.toNat := Nat.lt_of_le_of_lt (Nat.mod_le ..) hn'
    have hgot : (Bytes.slice file (n.toNat % 2 ^ 20 * 4096) 4096).length = 4096 :=
      Bytes.length_slice (block_le hfile hm)
    have hfine : ¬ ((StreamCephDB.runCalls file calls).file.failbit = true ∨
        StreamCephDB.streamOffset n.toNat < 0) := by
      rw [hfail, hneg, not_or]
      exact ⟨hok, by omega⟩
    rw [if_neg hfine, hoffset hsmall,
      slice_streamed hfile hrange hcalls hm, StreamCephDB.buffer, hgot, Nat.sub_self,
      List.replicate_zero, List.append_nil]

end Agree

/-- **When the two builds agree.** After a sequence of `Update`s and `Insert`s in the transaction
phase on a file of `N` blocks, the builds hold the same blocks and read the same bytes if and only
if the calls write nothing new and the offsets of the stream build do no harm. -/
theorem variants_agree_iff {w : CoreWorkload} {file : Bytes} {calls : List CephCall}
    (hpos : 1 ≤ w.recordCount) (hrange : w.recordCount.toNat < 2 ^ 31)
    (hfile : file.length = w.recordCount.toNat * 4096)
    (hcalls : ∀ c ∈ calls, c.IsWrite ∧ ∃ keyNum, c.key = w.buildKeyName keyNum) :
    VariantsAgree w.recordCount (MmapCephDB.runCalls file calls)
        (StreamCephDB.runCalls file calls) ↔
      WritesNothingNew w.recordCount file calls ∧ OffsetsHarmless w.recordCount file calls := by
  have hnamed : ∀ c ∈ calls, c.IsWrite ∧ ∃ n < w.recordCount, c.key = userKey n := fun c hc => by
    obtain ⟨hwrite, keyNum, hkey⟩ := hcalls c hc
    exact ⟨hwrite, _, keyNumber_lt hpos keyNum, hkey⟩
  have hN : w.recordCount.toNat * 4096 ≤ file.length := hfile.ge
  obtain ⟨-, hstored⟩ :=
    MmapCephDB.runCalls_stored hN hrange fun c hc => (hnamed c hc).2
  have hstreamed : ∀ n < w.recordCount, _ := fun n hn =>
    slice_streamed hfile hrange hnamed (UInt64.lt_iff_toNat_lt.1 hn)
  have hmapped : ∀ n < w.recordCount, _ := fun n hn => hstored.slice_eq hN hn
  -- when nothing new is written, the mapped blocks are the old ones too
  have hkept : WritesNothingNew w.recordCount file calls → ∀ n < w.recordCount,
      Bytes.slice (MmapCephDB.runCalls file calls).file (n.toNat * 4096) 4096 =
        Bytes.slice file (n.toNat * 4096) 4096 := fun hnew n hn => by
    rw [hmapped n hn]
    cases hlast : lastWrite n calls with
    | none => rfl
    | some b => exact (hnew n hn b hlast).symm
  have hread : ∀ n < w.recordCount, _ := fun n hn =>
    MmapCephDB.readBlock_countOp hstored hN hrange hn
  constructor
  · intro hagree
    have hnew : WritesNothingNew w.recordCount file calls := fun n hn b hlast => by
      rw [← hstreamed n hn, hagree.block n hn, hmapped n hn, hlast]
      rfl
    refine ⟨hnew, fun n hn => ⟨fun hfail => ?_, fun hok hsmall => ?_⟩⟩
    · have hzeros := hagree.read n hn
      rw [(read_streamed hfile hrange hnamed hn).1 hfail, hread n hn, hkept hnew n hn] at hzeros
      exact (Except.ok.inj hzeros).symm
    · have hlow := hagree.read n hn
      rw [(read_streamed hfile hrange hnamed hn).2 hok hsmall, hread n hn, hkept hnew n hn] at hlow
      exact (Except.ok.inj hlow).symm
  · rintro ⟨hnew, hharmless⟩
    refine ⟨fun n hn => (hstreamed n hn).trans (hkept hnew n hn).symm, fun n hn => ?_⟩
    obtain ⟨hzeros, hlow⟩ := hharmless n hn
    rw [hread n hn, hkept hnew n hn]
    by_cases hfail : StreamCephDB.SeekFailed calls ∨ 2 ^ 19 ≤ n.toNat % 2 ^ 20
    · rw [(read_streamed hfile hrange hnamed hn).1 hfail, hzeros hfail]
    · have hsmall : n.toNat % 2 ^ 20 < 2 ^ 19 := by
        have hnot := fun h => hfail (.inr h)
        omega
      rw [(read_streamed hfile hrange hnamed hn).2 (fun h => hfail (.inl h)) hsmall,
        hlow (fun h => hfail (.inl h)) hsmall]

/-- An `Update` of a block that holds 4096 times `'a'` already: the builds agree. -/
theorem variants_agree_one_update :
    VariantsAgree 1 (MmapCephDB.runCalls (List.replicate 4096 'a'.toUInt8) [.update (userKey 0)])
      (StreamCephDB.runCalls (List.replicate 4096 'a'.toUInt8) [.update (userKey 0)]) := by
  have hlength : (List.replicate 4096 'a'.toUInt8).length = (1 : UInt64).toNat * 4096 :=
    List.length_replicate
  have hslice := Bytes.slice_replicate 4096 'a'.toUInt8
  have hstart : (0 : UInt64).toNat * 4096 = 0 := rfl
  have hzero : ∀ n : UInt64, n < 1 → n = 0 := fun n hn => by
    have hn' : n.toNat < 1 := UInt64.lt_iff_toNat_lt.1 hn
    exact UInt64.toNat_inj.1 (Nat.lt_one_iff.1 hn')
  have hfine : ¬ StreamCephDB.SeekFailed [.update (userKey 0)] := by
    rintro ⟨c, hc, hfails⟩
    obtain rfl := List.mem_singleton.1 (List.mem_of_mem_drop hc)
    have hbig := (StreamCephDB.seekFails_iff (n := 0) rfl).1 hfails
    have hsmall : (0 : UInt64).toNat = 0 := rfl
    omega
  refine (variants_agree_iff (w := oneRecord) (by decide) (by decide) hlength
    fun c hc => ⟨?_, 0, ?_⟩).2 ⟨fun n hn b hlast => ?_, fun n hn => ⟨?_, ?_⟩⟩
  · rw [List.mem_singleton.1 hc]
    trivial
  · rw [List.mem_singleton.1 hc]
    rfl
  · obtain rfl := hzero n hn
    obtain rfl : 'a'.toUInt8 = b := Option.some.inj hlast
    rw [hstart]
    exact hslice
  · obtain rfl := hzero n hn
    rintro (hfailed | hbig)
    · exact absurd hfailed hfine
    · exact absurd hbig (by decide)
  · obtain rfl := hzero n hn
    exact fun _ _ => rfl

/-- An `Insert` of such a block: the mapping holds 4096 times `'b'`, and the stream still `'a'`. -/
theorem insert_into_stream :
    ¬ VariantsAgree oneRecord.recordCount
      (MmapCephDB.runCalls (List.replicate 4096 'a'.toUInt8) [.insert (oneRecord.buildKeyName 0)])
      (StreamCephDB.runCalls (List.replicate 4096 'a'.toUInt8)
        [.insert (oneRecord.buildKeyName 0)]) := by
  intro hagree
  have hlength : (List.replicate 4096 'a'.toUInt8).length = oneRecord.recordCount.toNat * 4096 :=
    List.length_replicate
  have hslice := Bytes.slice_replicate 4096 'a'.toUInt8
  generalize hfile : List.replicate 4096 'a'.toUInt8 = file at hagree hlength hslice
  have hcalls : ∀ c ∈ [CephCall.insert (oneRecord.buildKeyName 0)],
      c.IsWrite ∧ ∃ n < oneRecord.recordCount, c.key = userKey n := fun c hc => by
    rw [List.mem_singleton.1 hc]
    exact ⟨trivial, 0, by decide, rfl⟩
  have hblock := hagree.block 0 (by decide)
  rw [slice_streamed hlength (by decide) hcalls (by decide),
    (MmapCephDB.runCalls_stored hlength.ge (by decide) fun c hc => (hcalls c hc).2).2.slice_eq
      hlength.ge (by decide)] at hblock
  have hstart : (0 : UInt64).toNat * 4096 = 0 := rfl
  have hlast : lastWrite 0 [.insert (oneRecord.buildKeyName 0)] = some 'b'.toUInt8 := rfl
  rw [hlast, hstart, hslice, ← hfile] at hblock
  rcases (List.replicate_inj.1 hblock).2 with hzero | hbytes
  · cases hzero
  · exact absurd hbytes (by decide)

end YcsbC
