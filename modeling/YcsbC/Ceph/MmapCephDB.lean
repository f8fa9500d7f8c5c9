import YcsbC.Ceph.CephCall
import YcsbC.Foundation.Bytes

/-!
# The Ceph back end on a mapped file

The build of `CephDB` with `MMAP` maps its file into memory and keeps the record of a key in the
block of 4096 bytes that its number names (`db/ceph_db.h`, from line 236). The calls run under
`mutex_` and are one step each. `msync` does not change the contents of the mapping.

## Main definitions

* `CephDB`: the members that both builds have, over what the blocks are kept in.
* `CephFailure`: how a call fails to return.
* `MmapCephDB.read`, `update`, `insert`, `scan`, `delete`: the calls.
-/

namespace YcsbC

/-- The members of `CephDB`, where `F` holds the file: its mapping, or its stream. A vector of
durations is given by its size. -/
structure CephDB (F : Type) where
  phase : Phase
  ops : ℕ
  times : TimeVector → ℕ
  file : F

/-- Why a call does not return: `substr` or `std::stoi` throws, or it accesses memory outside the
mapping. -/
inductive CephFailure where
  | badKey
  | outOfMapping
  deriving DecidableEq, Repr

/-- `std::stoi(key.substr(4))`. -/
def parseKey (key : Str) : Except CephFailure ℤ :=
  match realKey key with
  | some n => .ok n
  | none => .error .badKey

namespace CephDB

variable {F : Type}

/-- The state after the constructor. -/
def new (file : F) : CephDB F where
  phase := .invalid
  ops := 0
  times _ := 0
  file := file

/-- `CephDB::Init`. -/
def init (flag : Bool) (s : CephDB F) : CephDB F :=
  { s with phase := if flag then .load else .transaction }

/-- `ops ++`. -/
def countOp (s : CephDB F) : CephDB F := { s with ops := s.ops + 1 }

/-- `READ_TIME.push_back(timer.End())` and its like. -/
def pushTime (v : TimeVector) (s : CephDB F) : CephDB F :=
  { s with times := Function.update s.times v (s.times v + 1) }

end CephDB

/-- The build with `MMAP`. -/
abbrev MmapCephDB := CephDB Bytes

namespace MmapCephDB

/-- `1LL * RealKey * 4096`. -/
def blockOffset (realKey : ℤ) : Int64 := 1 * Int64.ofInt realKey * 4096

/-- The block at an offset lies inside the mapping. -/
def Inside (file : Bytes) (offset : Int64) : Prop :=
  0 ≤ offset.toInt ∧ offset.toInt + 4096 ≤ file.length

instance (file : Bytes) (offset : Int64) : Decidable (Inside file offset) :=
  inferInstanceAs (Decidable (_ ∧ _))

/-- `memcpy(buffer, offset_addr, 4096)`. -/
def memcpy (s : MmapCephDB) (offset : Int64) : Except CephFailure Bytes :=
  if Inside s.file offset then .ok (Bytes.slice s.file offset.toInt.toNat 4096)
  else .error .outOfMapping

/-- `memset(offset_addr, c, 4096)`. -/
def memset (s : MmapCephDB) (offset : Int64) (c : UInt8) : Except CephFailure MmapCephDB :=
  if Inside s.file offset then
    .ok { s with file := Bytes.fill s.file offset.toInt.toNat 4096 c }
  else .error .outOfMapping

/-- The block that `Read` copies. -/
def readBlock (key : Str) (s : MmapCephDB) : Except CephFailure Bytes := do
  let realKey ← parseKey key
  memcpy s (blockOffset realKey)

/-- The write of a block by `Update` and `Insert`. -/
def writeBlock (key : Str) (c : UInt8) (s : MmapCephDB) : Except CephFailure MmapCephDB := do
  let realKey ← parseKey key
  memset s (blockOffset realKey) c

theorem readBlock_of_realKey {key : Str} {n : ℤ} (h : realKey key = some n) (s : MmapCephDB) :
    readBlock key s = memcpy s (blockOffset n) := by
  rw [readBlock, parseKey, h]
  rfl

theorem writeBlock_of_realKey {key : Str} {n : ℤ} (h : realKey key = some n) (c : UInt8)
    (s : MmapCephDB) : writeBlock key c s = memset s (blockOffset n) c := by
  rw [writeBlock, parseKey, h]
  rfl

/-- The write of a block changes the file only. -/
theorem writeBlock_eq {key : Str} {c : UInt8} {s s' : MmapCephDB}
    (h : writeBlock key c s = .ok s') : s' = { s with file := s'.file } := by
  cases hkey : realKey key with
  | none =>
    rw [writeBlock, parseKey, hkey] at h
    cases h
  | some n =>
    rw [writeBlock_of_realKey hkey, memset] at h
    split_ifs at h
    cases h
    rfl

/-- `CephDB::Read`. -/
def read (key : Str) (s : MmapCephDB) : Except CephFailure Status × MmapCephDB :=
  let s := s.countOp
  match readBlock key s with
  | .ok _ => (.ok .kOK, s.pushTime .readTime)
  | .error e => (.error e, s)

/-- `CephDB::Update`. -/
def update (key : Str) (s : MmapCephDB) : Except CephFailure Status × MmapCephDB :=
  let s := s.countOp
  match writeBlock key 'a'.toUInt8 s with
  | .ok s => (.ok .kOK, s.pushTime .updateTime)
  | .error e => (.error e, s)

/-- `CephDB::Insert`. -/
def insert (key : Str) (s : MmapCephDB) : Except CephFailure Status × MmapCephDB :=
  if s.phase = .invalid ∨ s.phase = .load then (.ok .kOK, s)
  else
    let s := if s.phase = .transaction then s.countOp else s
    match writeBlock key 'b'.toUInt8 s with
    | .ok s => (.ok .kOK, s.pushTime (if s.phase = .transaction then .insertTime else .loadTime))
    | .error e => (.error e, s)

/-- `CephDB::Scan`. -/
def scan (s : MmapCephDB) : Except CephFailure Status × MmapCephDB :=
  (.ok .kOK, s.countOp.pushTime .scanTime)

/-- `CephDB::Delete`. -/
def delete (s : MmapCephDB) : Except CephFailure Status × MmapCephDB :=
  (.ok .kOK, s.countOp.pushTime .deleteTime)

/-- A call of a thread. -/
def perform : CephCall → MmapCephDB → Except CephFailure Status × MmapCephDB
  | .read key => read key
  | .update key => update key
  | .insert key => insert key
  | .scan _ => scan
  | .delete _ => delete

/-- A request of a thread. -/
def serve : CephRequest → MmapCephDB → Except CephFailure Status × MmapCephDB
  | .init flag => fun s => (.ok .kOK, s.init flag)
  | .call c => perform c

end MmapCephDB

end YcsbC
