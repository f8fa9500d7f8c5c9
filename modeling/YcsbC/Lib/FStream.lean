import Mathlib.Algebra.Ring.Int.Defs
import YcsbC.Foundation.Bytes

/-!
# A file stream opened for appending

`std::fstream` opened with `std::ios::in | std::ios::out | std::ios::app`, as `db/ceph_db.h` uses
it: the reads and the writes share one position, every write goes to the end of the file, and once a
call has failed the following ones do nothing until the stream is opened again. `failbit` stands for
the error state, since `eofbit` is only ever set together with it. Each write of the source is
followed by a `flush`, so it is in the file at once.

## Main definitions

* `FStream`: the file with the state of the stream.
* `FStream.seek`, `FStream.read`, `FStream.write`, `FStream.reopen`: the calls.
-/

namespace YcsbC

/-- A file, the position in it and the error state. -/
structure FStream where
  bytes : Bytes
  pos : ℕ
  failbit : Bool

namespace FStream

/-- `open`. -/
def openFile (bytes : Bytes) : FStream := ⟨bytes, 0, false⟩

/-- `seekg` and `seekp` from `std::ios::beg`; a negative position is an error. -/
def seek (offset : ℤ) (f : FStream) : FStream :=
  if f.failbit then f
  else if offset < 0 then { f with failbit := true }
  else { f with pos := offset.toNat }

/-- `read` of `n` characters: those that are there, and an error when they are fewer. -/
def read (n : ℕ) (f : FStream) : Bytes × FStream :=
  if f.failbit then ([], f)
  else
    let got := Bytes.slice f.bytes f.pos n
    (got, { f with pos := f.pos + got.length, failbit := got.length < n })

/-- `write`, wherever the position is. -/
def write (data : Bytes) (f : FStream) : FStream :=
  if f.failbit then f
  else { f with bytes := f.bytes ++ data, pos := (f.bytes ++ data).length }

/-- `close` and `open`. -/
def reopen (f : FStream) : FStream := openFile f.bytes

/-- A write after a seek appends, or does nothing when the stream has failed. -/
theorem write_seek (data : Bytes) (offset : ℤ) (f : FStream) :
    ((f.seek offset).write data).bytes =
        (if f.failbit ∨ offset < 0 then f.bytes else f.bytes ++ data) ∧
      (((f.seek offset).write data).failbit ↔ f.failbit ∨ offset < 0) := by
  obtain ⟨bytes, pos, failbit⟩ := f
  cases failbit with
  | true => simp [seek, write]
  | false => by_cases hoffset : offset < 0 <;> simp [seek, write, hoffset]

/-- What is read after a seek. -/
theorem read_seek (n : ℕ) (offset : ℤ) (f : FStream) :
    ((f.seek offset).read n).1 =
      if f.failbit ∨ offset < 0 then [] else Bytes.slice f.bytes offset.toNat n := by
  obtain ⟨bytes, pos, failbit⟩ := f
  cases failbit with
  | true => simp [seek, read]
  | false => by_cases hoffset : offset < 0 <;> simp [seek, read, hoffset]

end FStream

end YcsbC
