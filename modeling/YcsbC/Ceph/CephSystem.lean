import YcsbC.Ceph.MmapCephDB
import YcsbC.Foundation.Transitions

/-!
# Clients and `main` on the mapped Ceph back end

The threads of `DelegateClient` share one `CephDB`. A call takes `mutex_` and is one step here.
`main` joins the load threads before it starts the transaction threads, and joins these before it
calls `HandleAllData` (`ycsbc.cc`). A thread whose call does not return is never joined.

## Main definitions

* `CephThread`, `CephStage`, `CephSystem`: the states of the parties.
* `CephMove`, `CephSystem.Step`: the transitions.
-/

namespace YcsbC

/-- A client thread: it has requests left, or a call of it has not returned. -/
inductive CephThread where
  | idle (requests : List CephRequest)
  | failed (e : CephFailure)

/-- Where `main` is. -/
inductive CephStage where
  | loading
  | transacting
  | handling
  deriving DecidableEq, Repr

/-- The back end with all threads, and the calls that have returned since the threads of the stage
were started. -/
structure CephSystem (ι : Type) where
  db : MmapCephDB
  client : ι → CephThread
  stage : CephStage
  history : List CephCall

/-- Who takes a step: a request of a thread is served, or fails; `main` goes on. -/
inductive CephMove (ι : Type) where
  | serve (i : ι)
  | fail (i : ι)
  | joinLoad
  | handleAllData

namespace CephSystem

variable {ι : Type}

/-- The program starts on a file: the load threads are there with their requests. -/
def new (file : Bytes) (load : ι → List CephRequest) : CephSystem ι where
  db := .new file
  client i := .idle (load i)
  stage := .loading
  history := []

/-- The transitions. -/
inductive Step [DecidableEq ι] (transactions : ι → List CephRequest) :
    CephSystem ι → CephMove ι → CephSystem ι → Prop
  | serve {s i r rs st db} (hi : s.client i = .idle (r :: rs))
      (hr : MmapCephDB.serve r s.db = (.ok st, db)) :
      Step transactions s (.serve i) { s with
        db := db
        client := Function.update s.client i (.idle rs)
        history := s.history ++ r.calls }
  | fail {s i r rs e db} (hi : s.client i = .idle (r :: rs))
      (hr : MmapCephDB.serve r s.db = (.error e, db)) :
      Step transactions s (.fail i) { s with
        db := db
        client := Function.update s.client i (.failed e) }
  | joinLoad {s} (hstage : s.stage = .loading) (hi : ∀ i, s.client i = .idle []) :
      Step transactions s .joinLoad { s with
        stage := .transacting
        client := fun i => .idle (transactions i)
        history := [] }
  | handleAllData {s} (hstage : s.stage = .transacting) (hi : ∀ i, s.client i = .idle []) :
      Step transactions s .handleAllData { s with stage := .handling }

end CephSystem

end YcsbC
