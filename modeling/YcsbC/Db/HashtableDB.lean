import Mathlib.Algebra.Ring.Int.Defs
import YcsbC.Core.DB
import YcsbC.Db.Store

/-!
# The in-memory store

The five operations of `HashtableDB` over the memory of a `LockStlDB`
(`db/hashtable_db.cc`). All tables of the database share one `key_table_`, whose keys are the table
name followed by the key.

## Main definitions

* `HashtableDB.read`, `scan`, `update`, `insert`, `delete`.
* `LockStlDB`, `LockStlDB.destroy`: the back end and its destructor.
-/

namespace YcsbC

namespace HashtableDB

open Store

/-- The key of `key_table_` for a record: `table + key`. -/
def keyIndex (table key : Str) : Str := table ++ key

/-! ### Reading -/

/-- The loop of `Read` and `Scan` over the requested fields. -/
def readFields (t : ℕ) : List Str → Program Store (List KVPair)
  | [] => pure []
  | field :: fields => do
    match ← fieldGet t field with
    | none => readFields t fields
    | some value =>
      let str ← readString value
      let result ← readFields t fields
      pure ((field, str) :: result)

/-- The loop of `Read` and `Scan` over all entries of a field table. -/
def readPairs : List (Str × ℕ) → Program Store (List KVPair)
  | [] => pure []
  | (field, value) :: pairs => do
    let str ← readString value
    let result ← readPairs pairs
    pure ((field, str) :: result)

/-- The field/value pairs of one record, for `Read` and for `Scan`. -/
def readRecord (order : IterationOrder VmpString) (t : ℕ) :
    Option (List Str) → Program Store (List KVPair)
  | none => do readPairs (← fieldEntries order t)
  | some fields => readFields t fields

/-- `HashtableDB::Read`. -/
def read (order : IterationOrder VmpString) (table key : Str) (fields : Option (List Str))
    (result : List KVPair) : Program Store (Status × List KVPair) := do
  match ← keyGet (keyIndex table key) with
  | none => pure (.kErrorNoData, result)
  | some t =>
    let result ← readRecord order t fields
    pure (.kOK, result)

/-- The loop of `Scan` over the entries of `key_table_`. -/
def scanRecords (order : IterationOrder VmpString) (fields : Option (List Str)) :
    List (Str × ℕ) → Program Store (List (List KVPair))
  | [] => pure []
  | (_, t) :: pairs => do
    let fieldValues ← readRecord order t fields
    let result ← scanRecords order fields pairs
    pure (fieldValues :: result)

/-- The conversion of an `int` to `size_t`. -/
def toSizeT (len : ℤ) : ℕ := (len % 2 ^ 64).toNat

/-- `HashtableDB::Scan`. The old value of `result` is cleared. -/
def scan (order : IterationOrder VmpString) (table key : Str) (len : ℤ)
    (fields : Option (List Str)) (_result : List (List KVPair)) :
    Program Store (Status × List (List KVPair)) := do
  let pairs ← keyEntries order (some (keyIndex table key)) (some (toSizeT len))
  let result ← scanRecords order fields pairs
  pure (.kOK, result)

/-! ### Writing -/

/-- The loop of `Update` on a record that it has just created; the result of
`field_table->Insert` is ignored. -/
def fillFields (t : ℕ) : List KVPair → Program Store Unit
  | [] => pure ()
  | (field, str) :: values => do
    let value ← copyString str
    let _ ← fieldInsert t field value
    fillFields t values

/-- The loop of `Update` on a record that exists. -/
def updateFields (t : ℕ) : List KVPair → Program Store Unit
  | [] => pure ()
  | (field, str) :: values => do
    let value ← copyString str
    match ← fieldUpdate t field value with
    | none =>
      let _ ← fieldInsert t field value
      updateFields t values
    | some old =>
      deleteString old
      updateFields t values

/-- `HashtableDB::Update` once `key_table_->Get` has returned. -/
def updateAt (key : Str) (values : List KVPair) : Option ℕ → Program Store Status
  | none => do
    let t ← newFieldHashtable
    let _ ← keyInsert key t
    fillFields t values
    pure .kOK
  | some t => do
    updateFields t values
    pure .kOK

/-- `HashtableDB::Update`. -/
def update (table key : Str) (values : List KVPair) : Program Store Status := do
  updateAt (keyIndex table key) values (← keyGet (keyIndex table key))

/-- The loop of `Insert`: it stops at the first field that is present. -/
def insertFields (t : ℕ) : List KVPair → Program Store Status
  | [] => pure .kOK
  | (field, str) :: values => do
    let value ← copyString str
    if ← fieldInsert t field value then
      insertFields t values
    else
      deleteString value
      pure .kErrorConflict

/-- `HashtableDB::Insert` once `key_table_->Get` has returned. -/
def insertAt (key : Str) (values : List KVPair) : Option ℕ → Program Store Status
  | none => do
    let t ← newFieldHashtable
    let _ ← keyInsert key t
    insertFields t values
  | some t => insertFields t values

/-- `HashtableDB::Insert`. -/
def insert (table key : Str) (values : List KVPair) : Program Store Status := do
  insertAt (keyIndex table key) values (← keyGet (keyIndex table key))

/-- `HashtableDB::Delete`. -/
def delete (order : IterationOrder VmpString) (table key : Str) : Program Store Status := do
  match ← keyRemove (keyIndex table key) with
  | none => pure .kErrorNoData
  | some t =>
    deleteFieldHashtable order t
    pure .kOK

end HashtableDB

/-- `LockStlDB` as a back end; it inherits the empty `DB::Init`. -/
def LockStlDB (order : IterationOrder VmpString) : DB Store where
  init _ := pure ()
  read := HashtableDB.read order
  scan := HashtableDB.scan order
  update := HashtableDB.update
  insert := HashtableDB.insert
  delete := HashtableDB.delete order

namespace LockStlDB

open Store

/-- The loop of the destructor over the entries of `key_table_`. -/
def deleteTables (order : IterationOrder VmpString) : List (Str × ℕ) → Program Store Unit
  | [] => pure ()
  | (_, t) :: pairs => do
    deleteFieldHashtable order t
    deleteTables order pairs

/-- `LockStlDB::~LockStlDB`. -/
def destroy (order : IterationOrder VmpString) : Program Store Unit := do
  let pairs ← keyEntries order none none
  deleteTables order pairs
  deleteKeyTable

end LockStlDB

end YcsbC
