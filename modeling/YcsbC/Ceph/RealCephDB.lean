import Mathlib.Algebra.Group.Nat.Defs
import Mathlib.Algebra.Ring.Int.Defs
import YcsbC.Ceph.CephCall
import YcsbC.Foundation.Heap

/-!
# The asynchronous Ceph back end

`RealCephDB` hands each `Read`, `Update` and `Insert` to librbd as an asynchronous operation on a
4096-byte block of one image (`db/real_ceph_db.h`). The buffer of a read is allocated by `malloc`
and freed by the completion callback; the buffer of a write is a local array of the call. Every call
runs under `mutex_`, which is taken and dropped in `YcsbC.Ceph.RealCephSystem`; the steps of a call
are those of its body.

## Main definitions

* `Aio`: a submitted operation.
* `RealCephDB`: the members of the back end, the globals of its file and the memory it uses.
* `RealCephDB.read`, `update`, `insert`, `scan`, `delete`, `init`: the calls.
-/

namespace YcsbC

/-- Where the completion of an operation stands: its callback has not started; has started; has
called `free` (reads only); has decremented `async_op_count`; has called `notify_all`. -/
inductive Completion where
  | pending
  | started
  | freed
  | decremented
  | finished
  deriving DecidableEq, Repr

/-- What is submitted to librbd: a read into a block of the heap, or a write from the array `buf` of
the call that a thread is running. -/
inductive AioKind (ι : Type) where
  | read (buff : ℕ)
  | write (thread : ι)
  deriving DecidableEq, Repr

/-- A submitted operation. -/
structure Aio (ι : Type) where
  kind : AioKind ι
  offset : ℤ
  completion : Completion
  deriving DecidableEq, Repr

/-- The members of `RealCephDB`, the globals of its file, the memory and the submitted operations. A
vector of durations is given by its size, and `increments` is the number of times that
`async_op_count` has been incremented. -/
structure RealCephDB (ι : Type) where
  phase : Phase
  ops : ℕ
  times : TimeVector → ℕ
  asyncOpCount : Int32
  heap : Heap Unit
  freed : List ℕ
  frame : ι → Bool
  aios : List (Aio ι)
  increments : ℕ

namespace RealCephDB

/-- `CEPHBLOCKSIZE`. -/
def cephBlockSize : ℤ := 4096

variable {ι : Type}

/-- The state after the constructor. -/
def new : RealCephDB ι where
  phase := .invalid
  ops := 0
  times _ := 0
  asyncOpCount := 0
  heap := .empty
  freed := []
  frame _ := false
  aios := []
  increments := 0

/-! ### The steps of a call -/

/-- `ops ++`. -/
def countOp : Program (RealCephDB ι) Unit :=
  .atomic fun s => ((), { s with ops := s.ops + 1 })

/-- `READ_TIME.push_back(timer.End())` and its like. -/
def pushTime (v : TimeVector) : Program (RealCephDB ι) Unit :=
  .atomic fun s => ((), { s with times := Function.update s.times v (s.times v + 1) })

/-- The value of `phase`. -/
def getPhase : Program (RealCephDB ι) Phase := .atomic fun s => (s.phase, s)

/-- `malloc(CEPHBLOCKSIZE)`. -/
def malloc : Program (RealCephDB ι) ℕ :=
  .atomic fun s =>
    let r := s.heap.alloc ()
    (r.1, { s with heap := r.2 })

/-- `char buf[CEPHBLOCKSIZE]` in the frame of the call that the thread is running. -/
def declareBuf [DecidableEq ι] (i : ι) : Program (RealCephDB ι) Unit :=
  .atomic fun s => ((), { s with frame := Function.update s.frame i true })

/-- `rbd_aio_read` or `rbd_aio_write`. -/
def submit (kind : AioKind ι) (offset : ℤ) : Program (RealCephDB ι) Unit :=
  .atomic fun s => ((), { s with aios := s.aios ++ [⟨kind, offset, .pending⟩] })

/-- `async_op_count++`. -/
def countAsyncOp : Program (RealCephDB ι) Unit :=
  .atomic fun s =>
    ((), { s with asyncOpCount := s.asyncOpCount + 1, increments := s.increments + 1 })

/-! ### The calls

A call returns its status, or `none` when it throws. -/

/-- `RealCephDB::Init`. -/
def init (flag : Bool) : Program (RealCephDB ι) (Option Status) :=
  .atomic fun s => (some .kOK, { s with phase := if flag then .load else .transaction })

/-- `RealCephDB::Read`. -/
def read (key : Str) : Program (RealCephDB ι) (Option Status) := do
  countOp
  let buff ← malloc
  match realKey key with
  | none => pure none
  | some n =>
    submit (.read buff) (n * cephBlockSize)
    countAsyncOp
    pushTime .readTime
    pure (some .kOK)

/-- The write of a block, from `char buf[CEPHBLOCKSIZE]` to `async_op_count++`: `false` when
`std::stoi` throws. -/
def writeBlock [DecidableEq ι] (i : ι) (key : Str) : Program (RealCephDB ι) Bool := do
  declareBuf i
  match realKey key with
  | none => pure false
  | some n =>
    submit (.write i) (n * cephBlockSize)
    countAsyncOp
    pure true

/-- `RealCephDB::Update`. -/
def update [DecidableEq ι] (i : ι) (key : Str) : Program (RealCephDB ι) (Option Status) := do
  countOp
  if ← writeBlock i key then
    pushTime .updateTime
    pure (some .kOK)
  else pure none

/-- `if (phase == TRANSACTION) ops ++`. -/
def countInsert : Program (RealCephDB ι) Unit := do
  let phase ← getPhase
  if phase = .transaction then countOp else pure ()

/-- Where the duration of an `Insert` goes. -/
def pushInsertTime : Program (RealCephDB ι) Unit := do
  let phase ← getPhase
  if phase = .transaction then pushTime .insertTime else pushTime .loadTime

/-- `RealCephDB::Insert`. -/
def insert [DecidableEq ι] (i : ι) (key : Str) : Program (RealCephDB ι) (Option Status) := do
  let phase ← getPhase
  if phase = .invalid ∨ phase = .load then pure (some .kOK)
  else
    countInsert
    if ← writeBlock i key then
      pushInsertTime
      pure (some .kOK)
    else pure none

/-- `RealCephDB::Scan`. -/
def scan : Program (RealCephDB ι) (Option Status) := do
  countOp
  pushTime .scanTime
  pure (some .kOK)

/-- `RealCephDB::Delete`. -/
def delete : Program (RealCephDB ι) (Option Status) := do
  countOp
  pushTime .deleteTime
  pure (some .kOK)

end RealCephDB

end YcsbC
