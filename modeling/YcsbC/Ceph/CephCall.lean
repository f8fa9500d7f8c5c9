import YcsbC.Core.DB
import YcsbC.Lib.Stoi

/-!
# Calls of the Ceph back ends

`CephDB` and `RealCephDB` have the same interface, the same phases and the same vectors of
durations (`db/ceph_db.h`, `db/real_ceph_db.h`). Of its arguments a call uses the key only. A thread
of `DelegateClient` first calls `Init` and then makes its calls (`ycsbc.cc`).

## Main definitions

* `Phase`, `TimeVector`.
* `CephCall`, `CephRequest`: what a thread asks of the back end.
-/

namespace YcsbC

/-- `enum Phase`. -/
inductive Phase where
  | invalid
  | load
  | transaction
  deriving DecidableEq, Repr

/-- The vectors of durations that the calls fill. -/
inductive TimeVector where
  | readTime
  | insertTime
  | updateTime
  | deleteTime
  | scanTime
  | loadTime
  deriving DecidableEq, Repr

/-- A call of a thread, with its key. -/
inductive CephCall where
  | read (key : Str)
  | update (key : Str)
  | insert (key : Str)
  | scan (key : Str)
  | delete (key : Str)
  deriving DecidableEq, Repr

/-- `Init` or a call. -/
inductive CephRequest where
  | init (isLoading : Bool)
  | call (c : CephCall)
  deriving DecidableEq, Repr

/-- The key of a call. -/
def CephCall.key : CephCall → Str
  | read key => key
  | update key => key
  | insert key => key
  | scan key => key
  | delete key => key

/-- The vector that the duration of a call goes to in the transaction phase. -/
def CephCall.timeVector : CephCall → TimeVector
  | read _ => .readTime
  | update _ => .updateTime
  | insert _ => .insertTime
  | scan _ => .scanTime
  | delete _ => .deleteTime

/-- The call of a request, if it is one. -/
def CephRequest.calls : CephRequest → List CephCall
  | init _ => []
  | call c => [c]

/-- What a load thread asks: `Init(true)` and an `Insert` for each of its keys. -/
def loadRequests (keys : List Str) : List CephRequest :=
  .init true :: keys.map fun key => .call (.insert key)

/-- What a transaction thread asks: `Init(false)` and its calls. -/
def transactionRequests (calls : List CephCall) : List CephRequest :=
  .init false :: calls.map .call

end YcsbC
