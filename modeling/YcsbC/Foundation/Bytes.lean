import Mathlib.Data.Nat.Notation
import Mathlib.Tactic.Common

/-!
# Ranges of bytes

A file or a mapping as the list of its bytes, of which a range of consecutive bytes is read, or
overwritten with one byte.

## Main definitions

* `Bytes.slice`, `Bytes.fill`: read and overwrite a range.

## Main results

* `Bytes.getElem?_fill_self`, `getElem?_fill_of_not_mem`: a byte after a range was overwritten.
* `Bytes.slice_eq_slice`: when two ranges agree.
-/

namespace YcsbC

/-- The contents of a file. -/
abbrev Bytes := List UInt8

namespace Bytes

variable {b : Bytes} {off off' n n' k : ℕ} {c : UInt8}

/-- The `n` bytes from `off` on, or what there is of them. -/
def slice (b : Bytes) (off n : ℕ) : Bytes := (b.drop off).take n

/-- The contents after the `n` bytes from `off` on, which are there, have been set to `c`. -/
def fill (b : Bytes) (off n : ℕ) (c : UInt8) : Bytes :=
  b.take off ++ (List.replicate n c ++ b.drop (off + n))

theorem length_slice (h : off + n ≤ b.length) : (slice b off n).length = n := by
  simp only [slice, List.length_take, List.length_drop]
  omega

theorem getElem?_slice (hk : k < n) : (slice b off n)[k]? = b[off + k]? := by
  rw [slice, List.getElem?_take_of_lt hk, List.getElem?_drop]

theorem length_fill (h : off + n ≤ b.length) : (fill b off n c).length = b.length := by
  simp only [fill, List.length_append, List.length_take, List.length_replicate, List.length_drop]
  omega

/-- A byte of the range that was overwritten. -/
theorem getElem?_fill_self (h : off + n ≤ b.length) (hoff : off ≤ k) (hk : k < off + n) :
    (fill b off n c)[k]? = some c := by
  have htake : (b.take off).length = off := by
    rw [List.length_take]
    omega
  rw [fill, List.getElem?_append_right (by omega), htake,
    List.getElem?_append_left (by rw [List.length_replicate]; omega),
    List.getElem?_replicate_of_lt (by omega)]

/-- A byte outside the range that was overwritten. -/
theorem getElem?_fill_of_not_mem (h : off + n ≤ b.length) (hk : k < off ∨ off + n ≤ k) :
    (fill b off n c)[k]? = b[k]? := by
  have htake : (b.take off).length = off := by
    rw [List.length_take]
    omega
  rcases hk with hk | hk
  · rw [fill, List.getElem?_append_left (by omega), List.getElem?_take_of_lt hk]
  · rw [fill, List.getElem?_append_right (by omega), htake,
      List.getElem?_append_right (by rw [List.length_replicate]; omega), List.length_replicate,
      List.getElem?_drop]
    congr 1
    omega

/-- Two ranges of equal length agree when their bytes do. -/
theorem slice_eq_slice {b' : Bytes} (h : ∀ k < n, b[off + k]? = b'[off' + k]?) :
    slice b off n = slice b' off' n := by
  ext1 k
  by_cases hk : k < n
  · rw [getElem?_slice hk, getElem?_slice hk, h k hk]
  · have hlength : ∀ (b : Bytes) off, (slice b off n).length ≤ k := fun b off => by
      simp only [slice, List.length_take]
      omega
    rw [List.getElem?_eq_none (hlength b off), List.getElem?_eq_none (hlength b' off')]

theorem slice_replicate (n : ℕ) (c : UInt8) :
    slice (List.replicate n c) 0 n = List.replicate n c := by
  rw [slice, List.drop_zero, List.take_of_length_le (Nat.le_of_eq List.length_replicate)]

/-- What is appended lies behind a range. -/
theorem slice_append (b' : Bytes) (h : off + n ≤ b.length) :
    slice (b ++ b') off n = slice b off n :=
  slice_eq_slice fun k hk => List.getElem?_append_left (by omega)

end Bytes

end YcsbC
