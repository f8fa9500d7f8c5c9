import YcsbC.Ceph.MmapCephDB
import YcsbC.Lib.FStream

/-!
# The Ceph back end on a file stream

The build of `CephDB` without `MMAP` works on a `std::fstream` (`db/ceph_db.h`, up to line 232). It
computes the offset of a block in `int`, and its `Insert` writes in every phase.

## Main definitions

* `StreamCephDB.read`, `update`, `insert`, `scan`, `delete`: the calls.
-/

namespace YcsbC

/-- The build without `MMAP`. -/
abbrev StreamCephDB := CephDB FStream

namespace StreamCephDB

/-- `RealKey * 4096`, an `int`, as a `std::streamoff`. -/
def streamOffset (realKey : ℤ) : ℤ := (Int32.ofInt realKey * 4096).toInt

/-- `CephDB::Flush`. -/
def flush (s : StreamCephDB) : StreamCephDB :=
  if s.ops % 10 = 0 then { s with file := s.file.reopen } else s

/-- `std::vector<char> buffer(4096)`, which starts with zeros, after bytes have been read into it.
-/
def buffer (got : Bytes) : Bytes := got ++ List.replicate (4096 - got.length) 0

/-- `seekg` and `read` into the buffer. -/
def readBlock (key : Str) (s : StreamCephDB) : Except CephFailure (Bytes × StreamCephDB) := do
  let realKey ← parseKey key
  let (got, file) := (s.file.seek (streamOffset realKey)).read 4096
  pure (buffer got, { s with file := file })

/-- `seekp` and `write` of 4096 times the character. -/
def writeBlock (key : Str) (c : UInt8) (s : StreamCephDB) : Except CephFailure StreamCephDB := do
  let realKey ← parseKey key
  let file := (s.file.seek (streamOffset realKey)).write (List.replicate 4096 c)
  pure { s with file := file }

/-- `CephDB::Read`. -/
def read (key : Str) (s : StreamCephDB) : Except CephFailure Status × StreamCephDB :=
  let s := s.countOp
  match readBlock key s with
  | .ok (_, s) => (.ok .kOK, (flush s).pushTime .readTime)
  | .error e => (.error e, s)

/-- `CephDB::Update`. -/
def update (key : Str) (s : StreamCephDB) : Except CephFailure Status × StreamCephDB :=
  let s := s.countOp
  match writeBlock key 'a'.toUInt8 s with
  | .ok s => (.ok .kOK, (flush s).pushTime .updateTime)
  | .error e => (.error e, s)

/-- `CephDB::Insert`. -/
def insert (key : Str) (s : StreamCephDB) : Except CephFailure Status × StreamCephDB :=
  let s := if s.phase = .transaction then s.countOp else s
  match writeBlock key 'b'.toUInt8 s with
  | .ok s =>
    (.ok .kOK, (flush s).pushTime (if s.phase = .transaction then .insertTime else .loadTime))
  | .error e => (.error e, s)

/-- `CephDB::Scan`. -/
def scan (s : StreamCephDB) : Except CephFailure Status × StreamCephDB :=
  (.ok .kOK, (flush s.countOp).pushTime .scanTime)

/-- `CephDB::Delete`. -/
def delete (s : StreamCephDB) : Except CephFailure Status × StreamCephDB :=
  (.ok .kOK, (flush s.countOp).pushTime .deleteTime)

/-- A call of a thread. -/
def perform : CephCall → StreamCephDB → Except CephFailure Status × StreamCephDB
  | .read key => read key
  | .update key => update key
  | .insert key => insert key
  | .scan _ => scan
  | .delete _ => delete

end StreamCephDB

end YcsbC
