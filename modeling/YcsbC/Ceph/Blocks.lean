import Mathlib.Algebra.Ring.Int.Defs
import YcsbC.Ceph.CephCall
import YcsbC.Core.CoreWorkload
import YcsbC.Foundation.Bytes

/-!
# What the blocks of a file should hold

The Ceph back ends see a file as blocks of 4096 bytes, one for each number of a key. In the
transaction phase an `Update` fills the block of its key with `'a'` and an `Insert` with `'b'`, so a
block holds what the last write that names its number has put there, or what it held before.

## Main definitions

* `lastWrite`: the last write of a block in a history of calls.
* `Stored`: a file holds what a history of calls has written.

## Main results

* `realKey_userKey`: the number of a key is read back from its text.
* `Stored.write`, `Stored.skip`: a history grows by a write, and by another call.
-/

namespace YcsbC

open CoreWorkload

/-- The number that is printed in a key is read back from it. -/
theorem realKey_userKey {n : UInt64} (hn : n.toNat < 2 ^ 31) :
    realKey (userKey n) = some (n.toNat : ℤ) := by
  have hlength : ¬ (userKey n).length < 4 := by
    simp only [userKey, List.length_append, String.length_toList]
    have huser : "user".length = 4 := rfl
    omega
  have hdrop : (userKey n).drop 4 = Nat.toDigits 10 n.toNat := rfl
  rw [realKey, if_neg hlength, hdrop, stoi_toDigits hn]

/-- The number of a key lies below the record count. -/
theorem keyNumber_lt {ordered : Bool} {recordCount : UInt64} (h : 1 ≤ recordCount)
    (keyNum : UInt64) : keyNumber ordered recordCount keyNum < recordCount := by
  have hpos : 1 ≤ recordCount.toNat := UInt64.le_iff_toNat_le.1 h
  rw [UInt64.lt_iff_toNat_lt, keyNumber, UInt64.toNat_mod]
  exact Nat.mod_lt _ hpos

/-- What a call puts into the block `n` in the transaction phase. -/
def CephCall.writes (n : UInt64) : CephCall → Option UInt8
  | update key => if key = userKey n then some 'a'.toUInt8 else none
  | insert key => if key = userKey n then some 'b'.toUInt8 else none
  | _ => none

/-- The last write of the block `n`. -/
def lastWrite (n : UInt64) (history : List CephCall) : Option UInt8 :=
  (history.filterMap (CephCall.writes n)).getLast?

@[simp] theorem lastWrite_nil (n : UInt64) : lastWrite n [] = none := rfl

theorem lastWrite_concat (n : UInt64) (history : List CephCall) (c : CephCall) :
    lastWrite n (history ++ [c]) = (c.writes n).or (lastWrite n history) := by
  have hlast : lastWrite n [c] = c.writes n := by
    rw [lastWrite, List.filterMap_cons]
    cases c.writes n <;> rfl
  rw [lastWrite, List.filterMap_append, List.getLast?_append]
  exact congrArg (fun o => o.or (lastWrite n history)) hlast

theorem CephCall.writes_of_ne {m n : UInt64} {c : CephCall} (hc : c.key = userKey m)
    (hn : n ≠ m) : c.writes n = none := by
  have hkey : ¬ userKey m = userKey n := fun h => hn (userKey_injective h.symm)
  cases c <;> simp only [key] at hc <;> simp only [writes, hc, if_neg hkey]

/-- From the file `file`, of `N` blocks of `B` bytes or more, the calls of the history have led to
the file `file'`. -/
structure Stored (B : ℕ) (N : UInt64) (file : Bytes) (history : List CephCall) (file' : Bytes) :
    Prop where
  length : file'.length = file.length
  block : ∀ n < N, ∀ k < B,
    file'[n.toNat * B + k]? = (lastWrite n history).or file[n.toNat * B + k]?
  other : ∀ k, N.toNat * B ≤ k → file'[k]? = file[k]?

namespace Stored

variable {B : ℕ} {N m : UInt64} {file file' : Bytes} {history : List CephCall} {c : CephCall}
  {b : UInt8}

theorem nil (B : ℕ) (N : UInt64) (file : Bytes) : Stored B N file [] file :=
  ⟨rfl, fun _ _ _ _ => rfl, fun _ _ => rfl⟩

theorem skip (h : Stored B N file history file') (hc : ∀ n, c.writes n = none) :
    Stored B N file (history ++ [c]) file' := by
  refine ⟨h.length, fun n hn k hk => ?_, h.other⟩
  rw [lastWrite_concat, hc]
  exact h.block n hn k hk

theorem end_le {n m : ℕ} (h : n < m) (B : ℕ) : n * B + B ≤ m * B := by
  rw [← Nat.succ_mul]
  exact Nat.mul_le_mul_right B h

theorem fits (h : Stored B N file history file') (hN : N.toNat * B ≤ file.length) (hm : m < N) :
    m.toNat * B + B ≤ file'.length := by
  rw [h.length]
  exact (end_le (UInt64.lt_iff_toNat_lt.1 hm) B).trans hN

theorem apart {n m : ℕ} (h : n ≠ m) {k : ℕ} (hk : k < B) :
    n * B + k < m * B ∨ m * B + B ≤ n * B + k := by
  rcases Nat.lt_or_gt_of_ne h with hlt | hlt
  · have hle := end_le hlt B
    omega
  · have hle := end_le hlt B
    omega

theorem write (h : Stored B N file history file') (hN : N.toNat * B ≤ file.length) (hm : m < N)
    (hkey : c.key = userKey m) (hc : c.writes m = some b) :
    Stored B N file (history ++ [c]) (Bytes.fill file' (m.toNat * B) B b) := by
  have hfits := h.fits hN hm
  refine ⟨(Bytes.length_fill hfits).trans h.length, fun n hn k hk => ?_, fun k hk => ?_⟩
  · rw [lastWrite_concat]
    by_cases hnm : n = m
    · rw [hnm, hc, Bytes.getElem?_fill_self hfits (by omega) (by omega)]
      rfl
    · have hne : n.toNat ≠ m.toNat := fun heq => hnm (UInt64.toNat_inj.1 heq)
      rw [CephCall.writes_of_ne hkey hnm, Bytes.getElem?_fill_of_not_mem hfits (apart hne hk)]
      exact h.block n hn k hk
  · have hle := end_le (UInt64.lt_iff_toNat_lt.1 hm) B
    rw [Bytes.getElem?_fill_of_not_mem hfits (.inr (by omega)), h.other k hk]

theorem slice_eq (h : Stored B N file history file') (hN : N.toNat * B ≤ file.length) {n : UInt64}
    (hn : n < N) :
    Bytes.slice file' (n.toNat * B) B =
      ((lastWrite n history).map (List.replicate B)).getD (Bytes.slice file (n.toNat * B) B) := by
  have hblock := h.block n hn
  cases hlast : lastWrite n history with
  | none =>
    rw [hlast] at hblock
    exact Bytes.slice_eq_slice hblock
  | some b =>
    rw [hlast] at hblock
    show Bytes.slice file' (n.toNat * B) B = List.replicate B b
    ext1 k
    by_cases hk : k < B
    · rw [Bytes.getElem?_slice hk, hblock k hk, List.getElem?_replicate_of_lt hk]
      rfl
    · have hlength := Bytes.length_slice (h.fits hN hn)
      rw [List.getElem?_eq_none (by omega),
        List.getElem?_eq_none (by rw [List.length_replicate]; omega)]

/-- A byte outside the blocks that have been written. -/
theorem getElem?_of_not_written (h : Stored B N file history file') (hB : 0 < B) {k : ℕ}
    (hk : ∀ n < N, lastWrite n history ≠ none → k < n.toNat * B ∨ n.toNat * B + B ≤ k) :
    file'[k]? = file[k]? := by
  by_cases hother : N.toNat * B ≤ k
  · exact h.other k hother
  · -- the byte lies in a block that has not been written
    have hlt : k / B < N.toNat := Nat.div_lt_of_lt_mul (by rw [Nat.mul_comm]; omega)
    have hsmall : k / B < 2 ^ 64 := Nat.lt_trans hlt N.toNat_lt
    have hnumber : (UInt64.ofNat (k / B)).toNat = k / B := UInt64.toNat_ofNat_of_lt' hsmall
    have hn : UInt64.ofNat (k / B) < N := by rwa [UInt64.lt_iff_toNat_lt, hnumber]
    have hdiv := Nat.div_add_mod' k B
    have hmod := Nat.mod_lt k hB
    have hblock := h.block _ hn (k % B) hmod
    have hnone : lastWrite (UInt64.ofNat (k / B)) history = none := by
      by_contra hwritten
      have hout := hk _ hn hwritten
      rw [hnumber] at hout
      omega
    rwa [hnone, hnumber, hdiv] at hblock

end Stored

/-- A workload with one record. -/
def oneRecord : CoreWorkload := .init ⟨"usertable".toList, 10, 1, 0, true, false, true⟩ default

end YcsbC
