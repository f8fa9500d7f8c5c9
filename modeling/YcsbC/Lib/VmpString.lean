import Mathlib.Data.List.TakeWhile
import Mathlib.Tactic.Common

/-!
# Strings

A `std::string` is a list of characters. Many calls pass it on as a `const char *`, whose reader
stops at the first NUL. The hashtables keep their keys as `vmp::String`, a C string stored
together with its length and its hash (`lib/string.h`).

## Main definitions

* `Str`, `cStr`, `NulFree`: strings, what a C string reader sees, and strings without a NUL.
* `VmpString`: a C string with its hash; the invariant of the class is carried as fields.
* `VmpString.wrap`, `VmpString.beq`: `String::Wrap` and `String::operator==`.

## Main results

* `VmpString.beq_iff`: `operator==` decides equality.
* `VmpString.wrap_inj`: strings are wrapped to equal keys iff they are the same C string.
-/

namespace YcsbC

/-- A `std::string`. -/
abbrev Str := List Char

/-- The character that ends a C string. -/
def nul : Char := Char.ofNat 0

/-- What the reader of the C string `s.c_str()` sees: the characters before the first NUL. -/
def cStr (s : Str) : Str := s.takeWhile (· ≠ nul)

/-- A string without a NUL. -/
def NulFree (s : Str) : Prop := nul ∉ s

instance (s : Str) : Decidable (NulFree s) := inferInstanceAs (Decidable (nul ∉ s))

theorem cStr_of_nulFree {s : Str} (h : NulFree s) : cStr s = s :=
  List.takeWhile_eq_self_iff.2 fun c hc => by
    simp only [ne_eq, decide_not, Bool.not_eq_eq_eq_not, Bool.not_true, decide_eq_false_iff_not]
    rintro rfl
    exact h hc

theorem nulFree_cStr (s : Str) : NulFree (cStr s) := fun h => by
  have := List.mem_takeWhile_imp h
  simp at this

@[simp] theorem cStr_cStr (s : Str) : cStr (cStr s) = cStr s :=
  cStr_of_nulFree (nulFree_cStr s)

theorem nulFree_append {s t : Str} : NulFree (s ++ t) ↔ NulFree s ∧ NulFree t := by
  simp [NulFree]

/-- The value of a `char` when it is converted to `uint64_t`; `char` is signed. -/
def charCode (c : Char) : UInt64 :=
  (UInt8.ofNat c.toNat).toInt8.toInt64.toUInt64

/-- `String::SDBMHash`. -/
def sdbmHash (s : Str) : UInt64 :=
  s.foldl (fun hash c => charCode c + (hash <<< 6) + (hash <<< 16) - hash) 0

/-- `vmp::String`: a C string with its hash and its length, as `set_value` computes them. -/
structure VmpString where
  hash : UInt64
  value : Str
  len : ℕ
  hash_eq : hash = sdbmHash value
  len_eq : len = value.length
  value_nulFree : NulFree value

namespace VmpString

/-- `String::Wrap`, and `String::Copy` up to the place of the characters. -/
def wrap (cstr : Str) : VmpString :=
  ⟨sdbmHash (cStr cstr), cStr cstr, (cStr cstr).length, rfl, rfl, nulFree_cStr cstr⟩

/-- `String::operator==`. -/
def beq (a b : VmpString) : Bool :=
  if a.hash ≠ b.hash then false else a.value = b.value

/-- The hash is a function of the characters, so equal characters make equal strings. -/
theorem ext_value {a b : VmpString} (h : a.value = b.value) : a = b := by
  obtain ⟨ha, va, la, hha, hla, _⟩ := a
  obtain ⟨hb, vb, lb, hhb, hlb, _⟩ := b
  subst hha hhb hla hlb h
  rfl

/-- `operator==` decides equality, although it only compares the characters of strings with
equal hashes. -/
theorem beq_iff (a b : VmpString) : a.beq b = true ↔ a = b := by
  constructor
  · intro h
    unfold beq at h
    split_ifs at h with hhash
    exact ext_value (of_decide_eq_true h)
  · rintro rfl
    simp [beq]

instance : DecidableEq VmpString := fun a b => decidable_of_iff _ (beq_iff a b)

theorem wrap_inj {s t : Str} : wrap s = wrap t ↔ cStr s = cStr t :=
  ⟨fun h => congrArg value h, fun h => ext_value h⟩

@[simp] theorem value_wrap (s : Str) : (wrap s).value = cStr s := rfl

/-- Every key of a hashtable is the wrapped form of its own characters. -/
@[simp] theorem wrap_value (a : VmpString) : wrap a.value = a :=
  ext_value (cStr_of_nulFree a.value_nulFree)

/-- Strings without a NUL are wrapped to different keys. -/
theorem wrap_inj_of_nulFree {s t : Str} (hs : NulFree s) (ht : NulFree t) :
    wrap s = wrap t ↔ s = t := by
  rw [wrap_inj, cStr_of_nulFree hs, cStr_of_nulFree ht]

end VmpString

end YcsbC
