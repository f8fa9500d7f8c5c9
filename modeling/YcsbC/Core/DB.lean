import YcsbC.Foundation.Program
import YcsbC.Lib.VmpString

/-!
# The database interface

`ycsbc::DB` is the interface between the benchmark and its back ends (`core/db.h`). A back end
works on a state of its own, and each of its functions is a program over that state. The
functions that fill a `result` vector take its value before the call and return the new one.

## Main definitions

* `KVPair`, `Status`, `DB`.
-/

namespace YcsbC

/-- `DB::KVPair`: a field name with its value. -/
abbrev KVPair := Str × Str

/-- The status codes `DB::kOK`, `DB::kErrorNoData` and `DB::kErrorConflict`. -/
inductive Status where
  | kOK
  | kErrorNoData
  | kErrorConflict
  deriving DecidableEq, Repr

/-- `DB`, over the state `σ` of the back end. -/
structure DB (σ : Type) where
  init (isLoading : Bool) : Program σ Unit
  read (table key : Str) (fields : Option (List Str)) (result : List KVPair) :
    Program σ (Status × List KVPair)
  scan (table key : Str) (recordCount : ℤ) (fields : Option (List Str))
    (result : List (List KVPair)) : Program σ (Status × List (List KVPair))
  update (table key : Str) (values : List KVPair) : Program σ Status
  insert (table key : Str) (values : List KVPair) : Program σ Status
  delete (table key : Str) : Program σ Status

end YcsbC
