import Mathlib.Data.Int.ModEq
import Mathlib.Tactic.Common

/-!
# Numbers of a fixed width

Programs compute with numbers of different widths, signed and unsigned, and convert between them.
This file relates the conversions to each other: a conversion to fewer bits may be done at any
point of a sum, and numbers in range are not changed by it.

## Main results

* `ofInt_inj_iff`: two integers are the same in 64 bits iff they are congruent.
* `toUInt32_add`, `ofInt_add`: sums that are cut to 32 bits.
-/

namespace YcsbC

theorem ofInt_natCast (n : ℕ) : UInt64.ofInt n = UInt64.ofNat n := by
  rw [← UInt64.toNat_inj, UInt64.ofInt, UInt64.toNat_ofNat', UInt64.toNat_ofNat']
  omega

/-- Integers are the same in 64 bits iff they are congruent. -/
theorem ofInt_inj_iff {x y : ℤ} : UInt64.ofInt x = UInt64.ofInt y ↔ x ≡ y [ZMOD 2 ^ 64] := by
  rw [← UInt64.toNat_inj, UInt64.ofInt, UInt64.ofInt, UInt64.toNat_ofNat', UInt64.toNat_ofNat',
    Int.ModEq]
  omega

theorem toNat_min (m n : UInt64) : (min m n).toNat = min m.toNat n.toNat := by
  show (if m ≤ n then m else n).toNat = _
  split_ifs with h <;> rw [UInt64.le_iff_toNat_le] at h <;> omega

/-- A sum in 64 bits that is cut to 32 bits. -/
theorem toUInt32_add (n : UInt64) (i : ℕ) :
    (n + UInt64.ofNat i).toUInt32 = UInt32.ofNat (n.toNat + i) := by
  rw [← UInt32.toNat_inj, UInt64.toNat_toUInt32, UInt64.toNat_add, UInt64.toNat_ofNat',
    UInt32.toNat_ofNat']
  omega

/-- A sum of integers that is cut to 32 bits. -/
theorem ofInt_add (n i : ℕ) : UInt32.ofInt (n + i) = UInt32.ofNat (n + i) := by
  rw [← UInt32.toNat_inj, UInt32.ofInt, UInt32.toNat_ofNat', UInt32.toNat_ofNat']
  omega

theorem toNat_ofInt {n : ℕ} (h : n < 2 ^ 32) : (UInt32.ofInt n).toNat = n := by
  rw [UInt32.ofInt, UInt32.toNat_ofNat']
  omega

theorem toUInt64_ofInt {n : ℕ} (h : n < 2 ^ 32) : (UInt32.ofInt n).toUInt64 = UInt64.ofNat n := by
  rw [← UInt64.toNat_inj, UInt32.toNat_toUInt64, toNat_ofInt h, UInt64.toNat_ofNat']
  omega

end YcsbC
