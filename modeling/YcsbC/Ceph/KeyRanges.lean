import Mathlib.Data.Int.ConditionallyCompleteOrder
import Mathlib.Data.Int.SuccPred
import Mathlib.Order.Interval.Set.Disjoint
import YcsbC.Ceph.MmapBlocks
import YcsbC.Ceph.RealCephDB
import YcsbC.Foundation.Words

/-!
# From keys to ranges of bytes

`BuildKeyName` prints a number behind `user`, and the block back ends read it back by
`stoi(key.substr(4))` and multiply it by the size of a block. For every record count that fits into
an `int` the two sides agree: no call throws, no product overflows, and different keys are given
disjoint ranges of bytes below the end of the last block.

## Main definitions

* `Properties.printedNumber`: the number that is printed in a key.
* `MmapCephDB.blockBytes`, `RealCephDB.blockBytes`: the bytes that the back ends access.
* `DecodesTo`: a key is read back as one of `N` block numbers.

## Main results

* `keys_decode_to_blocks`: keys, numbers and ranges of bytes.
-/

namespace YcsbC

open CoreWorkload

/-- The number that `BuildKeyName` prints. -/
def Properties.printedNumber (p : Properties) (keyNum : UInt64) : ℕ :=
  (keyNumber p.orderedInserts (UInt64.ofInt p.recordCount) keyNum).toNat

/-- The bytes of the block at `blockOffset`. -/
def MmapCephDB.blockBytes (realKey : ℤ) : Set ℤ :=
  Set.Ico (blockOffset realKey).toInt ((blockOffset realKey).toInt + 4096)

namespace RealCephDB

/-- `1LL * RealKey * CEPHBLOCKSIZE`. -/
def byteOffset (realKey : ℤ) : Int64 := 1 * Int64.ofInt realKey * Int64.ofInt cephBlockSize

/-- The bytes of the block at `byteOffset`. -/
def blockBytes (realKey : ℤ) : Set ℤ :=
  Set.Ico (byteOffset realKey).toInt ((byteOffset realKey).toInt + cephBlockSize)

theorem byteOffset_eq (realKey : ℤ) : byteOffset realKey = MmapCephDB.blockOffset realKey := rfl

theorem aios_read {ι : Type} {key : Str} {n : ℕ} (hkey : realKey key = some (n : ℤ))
    (hn : n < 2 ^ 31) (s : RealCephDB ι) :
    ((read key).run s).2.aios =
      s.aios ++ [⟨.read s.heap.next, (byteOffset n).toInt, .pending⟩] := by
  rw [byteOffset_eq, MmapCephDB.toInt_blockOffset hn]
  simp only [read, hkey, Program.run_bind]
  rfl

theorem aios_writeBlock {ι : Type} [DecidableEq ι] (i : ι) {key : Str} {n : ℕ}
    (hkey : realKey key = some (n : ℤ)) (hn : n < 2 ^ 31) (s : RealCephDB ι) :
    ((writeBlock i key).run s).2.aios =
      s.aios ++ [⟨.write i, (byteOffset n).toInt, .pending⟩] := by
  rw [byteOffset_eq, MmapCephDB.toInt_blockOffset hn]
  simp only [writeBlock, hkey, Program.run_bind]
  rfl

end RealCephDB

/-- A key is read back as the number `n` of one of `N` blocks: the offsets that the back ends
compute are exact, and the bytes they access lie in the first `N` blocks. -/
structure DecodesTo (N n : ℕ) (key : Str) : Prop where
  lt : n < N
  parsed : realKey key = some (n : ℤ)
  mmap_offset : (MmapCephDB.blockOffset n).toInt = n * 4096
  real_offset : (RealCephDB.byteOffset n).toInt = n * 4096
  mmap_inside : MmapCephDB.blockBytes n ⊆ Set.Ico 0 (N * 4096)
  real_inside : RealCephDB.blockBytes n ⊆ Set.Ico 0 (N * 4096)

variable {p : Properties} {N m n : ℕ} {key : Str}

/-- The bytes of the block `n`, as both back ends compute them. -/
theorem DecodesTo.blockBytes (h : DecodesTo N n key) :
    MmapCephDB.blockBytes n = Set.Ico (n * 4096 : ℤ) (n * 4096 + 4096) ∧
      RealCephDB.blockBytes n = Set.Ico (n * 4096 : ℤ) (n * 4096 + 4096) := by
  rw [MmapCephDB.blockBytes, RealCephDB.blockBytes, h.mmap_offset, h.real_offset]
  exact ⟨rfl, rfl⟩

theorem disjoint_blocks (h : m ≠ n) :
    Disjoint (Set.Ico (m * 4096 : ℤ) (m * 4096 + 4096))
      (Set.Ico (n * 4096 : ℤ) (n * 4096 + 4096)) := by
  rw [Set.disjoint_left]
  rintro x ⟨hm, hm'⟩ ⟨hn, hn'⟩
  omega

theorem decodesTo_userKey {n : UInt64} (hn : n.toNat < N) (hN : N < 2 ^ 31) :
    DecodesTo N n.toNat (userKey n) := by
  have hoffset := MmapCephDB.toInt_blockOffset (n := n.toNat) (by omega)
  have hinside : Set.Ico (n.toNat * 4096 : ℤ) (n.toNat * 4096 + 4096) ⊆ Set.Ico 0 (N * 4096) := by
    rintro x ⟨hlow, hhigh⟩
    constructor <;> omega
  refine ⟨hn, realKey_userKey (by omega), hoffset, hoffset, ?_, ?_⟩
  · rw [MmapCephDB.blockBytes, hoffset]
    exact hinside
  · rw [RealCephDB.blockBytes, RealCephDB.byteOffset_eq, hoffset]
    exact hinside

theorem printedNumber_lt (hN : p.recordCount = N) (hpos : 1 ≤ N) (hrange : N < 2 ^ 31)
    (keyNum : UInt64) : p.printedNumber keyNum < N := by
  have hcount : (UInt64.ofInt p.recordCount).toNat = N := by
    rw [hN, ofInt_natCast, UInt64.toNat_ofNat']
    omega
  have hone : 1 ≤ UInt64.ofInt p.recordCount := UInt64.le_iff_toNat_le.2 (by rwa [hcount])
  have hlt : p.printedNumber keyNum < (UInt64.ofInt p.recordCount).toNat :=
    UInt64.lt_iff_toNat_lt.1 (keyNumber_lt hone keyNum)
  rwa [hcount] at hlt

/-- **Keys name blocks.** The key of every number is `user` and a number below the record count, and
it is read back as that number. Two keys are the same iff their numbers are; otherwise their ranges
of bytes are disjoint. -/
theorem keys_decode_to_blocks (hN : p.recordCount = N) (hpos : 1 ≤ N) (hrange : N < 2 ^ 31)
    {w : CoreWorkload} (hw : Configured p w) :
    (∀ keyNum, w.buildKeyName keyNum =
        "user".toList ++ Nat.toDigits 10 (p.printedNumber keyNum) ∧
      DecodesTo N (p.printedNumber keyNum) (w.buildKeyName keyNum)) ∧
    ∀ keyNum keyNum',
      (w.buildKeyName keyNum = w.buildKeyName keyNum' ↔
        p.printedNumber keyNum = p.printedNumber keyNum') ∧
      (w.buildKeyName keyNum ≠ w.buildKeyName keyNum' →
        Disjoint (MmapCephDB.blockBytes (p.printedNumber keyNum))
            (MmapCephDB.blockBytes (p.printedNumber keyNum')) ∧
          Disjoint (RealCephDB.blockBytes (p.printedNumber keyNum))
            (RealCephDB.blockBytes (p.printedNumber keyNum'))) := by
  have hdecodes : ∀ keyNum, DecodesTo N (p.printedNumber keyNum) (w.buildKeyName keyNum) := by
    intro keyNum
    rw [hw.buildKeyName]
    exact decodesTo_userKey (printedNumber_lt hN hpos hrange keyNum) hrange
  have hsame : ∀ keyNum keyNum', w.buildKeyName keyNum = w.buildKeyName keyNum' ↔
      p.printedNumber keyNum = p.printedNumber keyNum' := by
    intro keyNum keyNum'
    rw [hw.buildKeyName, hw.buildKeyName]
    exact userKey_injective.eq_iff.trans UInt64.toNat_inj.symm
  refine ⟨fun keyNum => ⟨?_, hdecodes keyNum⟩, fun keyNum keyNum' => ⟨hsame keyNum keyNum', ?_⟩⟩
  · rw [hw.buildKeyName]
    rfl
  · intro hne
    have hdisjoint := disjoint_blocks (hne ∘ (hsame keyNum keyNum').2)
    rw [(hdecodes keyNum).blockBytes.1, (hdecodes keyNum').blockBytes.1,
      (hdecodes keyNum).blockBytes.2, (hdecodes keyNum').blockBytes.2]
    exact ⟨hdisjoint, hdisjoint⟩

/-- The largest record count. -/
theorem keys_decode_to_blocks_largest :
    let p : Properties := ⟨[], 1, 2 ^ 31 - 1, 0, true, true, false⟩
    ∀ keyNum, DecodesTo (2 ^ 31 - 1) (p.printedNumber keyNum)
      ((CoreWorkload.init p default).buildKeyName keyNum) := fun keyNum =>
  ((keys_decode_to_blocks rfl (by decide) (by decide) (configured_init _ default)).1 keyNum).2

end YcsbC
