import YcsbC.Core.CoreWorkload
import YcsbC.Foundation.Interleaving

/-!
# The clients

A client issues insertions while loading and transactions afterwards (`core/client.h`); `main`
starts the same number of clients for both phases, and each runs `DelegateClient` (`ycsbc.cc`). The
clients share the workload and the back end.

A transaction that needs a key has to leave the rejection loop of `NextTransactionKey`; when the
loop is not left within `fuel` rounds, the result is `none`.

## Main definitions

* `Bench`: the workload and the state of the back end.
* `Client.doInsert`, `Client.doTransaction` and the five transactions.
* `delegateClient`, `loadClients`: one client, and the clients of the load phase.
-/

namespace YcsbC

open CoreWorkload

/-- What the clients share: the workload and the state of the back end. -/
structure Bench (σ : Type) where
  workload : CoreWorkload
  db : σ

namespace Bench

variable {σ : Type}

/-- The workload as a part of the shared state. -/
def workloadPart (σ : Type) : Program.Part (Bench σ) CoreWorkload where
  get b := b.workload
  set w b := { b with workload := w }
  get_set _ _ := rfl
  set_set _ _ _ := rfl
  set_get _ := rfl

/-- The state of the back end as a part of the shared state. -/
def dbPart (σ : Type) : Program.Part (Bench σ) σ where
  get b := b.db
  set s b := { b with db := s }
  get_set _ _ := rfl
  set_set _ _ _ := rfl
  set_get _ := rfl

/-- A call of the workload. -/
def onWorkload {α : Type} (p : Program CoreWorkload α) : Program (Bench σ) α :=
  p.zoom (workloadPart σ)

/-- A call of the back end. -/
def onDB {α : Type} (p : Program σ α) : Program (Bench σ) α := p.zoom (dbPart σ)

@[simp] theorem run_onWorkload {α : Type} (p : Program CoreWorkload α) (b : Bench σ) :
    (onWorkload p).run b = ((p.run b.workload).1, { b with workload := (p.run b.workload).2 }) :=
  Program.run_zoom (workloadPart σ) p b

@[simp] theorem run_onDB {α : Type} (p : Program σ α) (b : Bench σ) :
    (onDB p).run b = ((p.run b.db).1, { b with db := (p.run b.db).2 }) :=
  Program.run_zoom (dbPart σ) p b

end Bench

namespace Client

open Bench

variable {σ : Type} (db : DB σ)

/-- `Client::DoInsert`. -/
def doInsert : Program (Bench σ) Bool := do
  let key ← onWorkload nextSequenceKey
  let pairs ← onWorkload buildValues
  let table ← onWorkload nextTable
  let status ← onDB (db.insert table key pairs)
  pure (status == .kOK)

/-- The fields that the transactions read: one field, or all of them. -/
def requestedFields : Program CoreWorkload (Option (List Str)) := do
  if ← .atomic fun w => (w.readAllFields, w) then pure none
  else
    let name ← nextFieldName
    pure (some ["field".toList ++ name])

/-- The values that the transactions write: all fields, or one of them. -/
def updateValues : Program CoreWorkload (List KVPair) := do
  if ← .atomic fun w => (w.writeAllFields, w) then buildValues else buildUpdate

/-- How the transactions begin that need a key: they name the table and draw the key. -/
def withTransactionKey (fuel : ℕ) (body : Str → Str → Program (Bench σ) Status) :
    Program (Bench σ) (Option Status) := do
  let table ← onWorkload nextTable
  match ← onWorkload (nextTransactionKey fuel) with
  | none => pure none
  | some key => some <$> body table key

/-- `Client::TransactionRead`. -/
def transactionRead (fuel : ℕ) : Program (Bench σ) (Option Status) :=
  withTransactionKey fuel fun table key => do
    let fields ← onWorkload requestedFields
    let r ← onDB (db.read table key fields [])
    pure r.1

/-- `Client::TransactionReadModifyWrite`. -/
def transactionReadModifyWrite (fuel : ℕ) : Program (Bench σ) (Option Status) :=
  withTransactionKey fuel fun table key => do
    let fields ← onWorkload requestedFields
    let _ ← onDB (db.read table key fields [])
    let values ← onWorkload updateValues
    onDB (db.update table key values)

/-- `Client::TransactionScan`. -/
def transactionScan (fuel : ℕ) : Program (Bench σ) (Option Status) :=
  withTransactionKey fuel fun table key => do
    let len ← onWorkload nextScanLength
    let fields ← onWorkload requestedFields
    let r ← onDB (db.scan table key len fields [])
    pure r.1

/-- `Client::TransactionUpdate`. -/
def transactionUpdate (fuel : ℕ) : Program (Bench σ) (Option Status) :=
  withTransactionKey fuel fun table key => do
    let values ← onWorkload updateValues
    onDB (db.update table key values)

/-- `Client::TransactionInsert`. -/
def transactionInsert : Program (Bench σ) Status := do
  let table ← onWorkload nextTable
  let key ← onWorkload nextSequenceKey
  let values ← onWorkload buildValues
  onDB (db.insert table key values)

/-- The transaction of an operation. -/
def transaction (fuel : ℕ) : Operation → Program (Bench σ) (Option Status)
  | .READ => transactionRead db fuel
  | .UPDATE => transactionUpdate db fuel
  | .INSERT => some <$> transactionInsert db
  | .SCAN => transactionScan db fuel
  | .READMODIFYWRITE => transactionReadModifyWrite db fuel

/-- `Client::DoTransaction`. -/
def doTransaction (fuel : ℕ) : Program (Bench σ) (Option Bool) := do
  let op ← onWorkload nextOperation
  let status ← transaction db fuel op
  pure (status.map (· == .kOK))

/-- The loop of `DelegateClient`, which adds up the successful operations. -/
def operations (fuel : ℕ) (isLoading : Bool) : ℕ → Program (Bench σ) (Option ℕ)
  | 0 => pure (some 0)
  | numOps + 1 => do
    match ← if isLoading then some <$> doInsert db else doTransaction db fuel with
    | none => pure none
    | some ok =>
      let oks ← operations fuel isLoading numOps
      pure (oks.map (ok.toNat + ·))

end Client

variable {σ : Type} (db : DB σ)

/-- `DelegateClient`. -/
def delegateClient (fuel numOps : ℕ) (isLoading : Bool) : Program (Bench σ) (Option ℕ) := do
  Bench.onDB (db.init isLoading)
  Client.operations db fuel isLoading numOps

/-- The number of operations that `main` gives each of the `numThreads` clients of a phase. -/
def opsPerThread (totalOps : ℤ) (numThreads : ℕ) : ℕ := (totalOps.tdiv numThreads).toNat

/-- The clients of the load phase on a back end in the state `s`. -/
def loadClients (p : Properties) (draws : Draws) (numThreads : ℕ) (s : σ) :
    Config (Fin numThreads) (Bench σ) (Option ℕ) :=
  ⟨⟨CoreWorkload.init p draws, s⟩, fun _ =>
    delegateClient db 0 (opsPerThread p.recordCount numThreads) true⟩

end YcsbC
