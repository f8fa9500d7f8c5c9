import Mathlib.Algebra.Group.Nat.Defs
import Mathlib.Algebra.Ring.Int.Defs
import YcsbC.Lib.VmpString

/-!
# Numbers in keys

The Ceph back ends find the block of a key by `std::stoi(key.substr(4))`
(`db/ceph_db.h`, `db/real_ceph_db.h`). `substr` throws when the key is too short; `stoi` skips white
space, reads a sign and the longest run of digits, and throws when there is no digit or the value
does not fit into an `int`. A call that throws is `none` here.

## Main definitions

* `stoi`, `realKey`.

## Main results

* `stoi_toDigits`: a printed number is read back.
-/

namespace YcsbC

/-- `isspace` in the C locale. -/
def isSpace (c : Char) : Bool :=
  c = ' ' || (9 ≤ c.toNat && c.toNat ≤ 13)

/-- The sign that `strtol` reads, with the rest of the string. -/
def readSign : Str → Bool × Str
  | '-' :: s => (true, s)
  | '+' :: s => (false, s)
  | s => (false, s)

/-- `std::stoi`; a string ends at its first character that is no digit, a NUL among them. -/
def stoi (s : Str) : Option ℤ :=
  let (negative, s) := readSign (s.dropWhile isSpace)
  let digits := s.takeWhile Char.isDigit
  if digits = [] then none
  else
    let value : ℤ := Nat.ofDigitChars 10 digits 0
    let value := if negative then -value else value
    if -2 ^ 31 ≤ value ∧ value < 2 ^ 31 then some value else none

/-- `std::stoi(key.substr(4))`. -/
def realKey (key : Str) : Option ℤ :=
  if key.length < 4 then none else stoi (key.drop 4)

/-- A digit is neither white space nor a sign. -/
theorem not_special_of_isDigit {c : Char} (hc : c.isDigit) :
    isSpace c = false ∧ c ≠ '-' ∧ c ≠ '+' := by
  simp only [Char.isDigit, Bool.and_eq_true, decide_eq_true_eq, ge_iff_le,
    UInt32.le_iff_toNat_le] at hc
  obtain ⟨hlow, hhigh⟩ := hc
  have hlow' : 48 ≤ c.toNat := hlow
  have hne : ∀ d : Char, d.toNat < 48 → c ≠ d := by
    rintro d hd rfl
    omega
  refine ⟨?_, hne '-' (by decide), hne '+' (by decide)⟩
  have hspace : c ≠ ' ' := hne ' ' (by decide)
  simp only [isSpace, hspace, decide_false, Bool.false_or, Bool.and_eq_false_iff,
    decide_eq_false_iff_not]
  omega

/-- `stoi` on a nonempty list of digits. -/
theorem stoi_of_digits {digits : Str} (hd : ∀ c ∈ digits, c.isDigit) (hne : digits ≠ []) :
    stoi digits = if (Nat.ofDigitChars 10 digits 0 : ℤ) < 2 ^ 31 then
      some (Nat.ofDigitChars 10 digits 0 : ℤ) else none := by
  obtain _ | ⟨c, cs⟩ := digits
  · exact absurd rfl hne
  obtain ⟨hspace, hminus, hplus⟩ := not_special_of_isDigit (hd c List.mem_cons_self)
  have hdrop : (c :: cs).dropWhile isSpace = c :: cs := by
    rw [List.dropWhile_cons, if_neg (by rw [hspace]; exact Bool.false_ne_true)]
  have hsign : readSign (c :: cs) = (false, c :: cs) := by
    rw [readSign.eq_def]
    split
    · rename_i heq
      exact absurd (List.cons.inj heq).1 hminus
    · rename_i heq
      exact absurd (List.cons.inj heq).1 hplus
    · rfl
  have htake : (c :: cs).takeWhile Char.isDigit = c :: cs :=
    List.takeWhile_eq_self_iff.2 hd
  simp only [stoi, hdrop, hsign, htake, if_neg hne, Bool.false_eq_true, if_false]
  have hpos : (0 : ℤ) ≤ Nat.ofDigitChars 10 (c :: cs) 0 := Int.natCast_nonneg _
  have hrange : -2 ^ 31 ≤ (Nat.ofDigitChars 10 (c :: cs) 0 : ℤ) := by omega
  simp only [hrange, true_and]

/-- The printed form of a number that fits into an `int` is read back. -/
theorem stoi_toDigits {n : ℕ} (hn : n < 2 ^ 31) : stoi (Nat.toDigits 10 n) = some (n : ℤ) := by
  rw [stoi_of_digits (fun c => Nat.isDigit_of_mem_toDigits (by omega) (by omega))
    Nat.toDigits_ne_nil, Nat.ofDigitChars_ten_toDigits, if_pos (by exact_mod_cast hn)]

end YcsbC
