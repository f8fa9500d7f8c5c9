import YcsbC.Foundation.Heap
import YcsbC.Foundation.Program
import YcsbC.Lib.StlHashtable

/-!
# The memory of the in-memory store

A `LockStlDB` is a hashtable of pointers to field tables, and a field table is a hashtable of
pointers to value strings (`db/hashtable_db.h`, `db/lock_stl_db.h`). Field tables and value
strings are allocated and released by hand, so both live on a heap and are named by their
addresses. Each call on a table holds the mutex of that table and is one atomic step; so are each
copy of a value string and each release. A step that touches memory already released leaves a
`Fault` behind.

## Main definitions

* `Fault`, `Store`: the memory, with the faults so far.
* `Store.keyGet`, `keyInsert`, `keyRemove`, `keyEntries`, `deleteKeyTable`: the calls on
  `key_table_`, and its deletion.
* `Store.fieldGet`, `fieldInsert`, `fieldUpdate`, `fieldEntries`: the calls on a field table.
* `Store.copyString`, `deleteString`, `newFieldHashtable`, `deleteFieldHashtable`: the virtual
  functions that `LockStlDB` defines.
* `Store.readString`: the copy of a value string into a `std::string`.
-/

namespace YcsbC

/-- A use or a second release of a block that has been released. -/
inductive Fault where
  | usedTable (t : ℕ)
  | usedString (p : ℕ)
  | deletedString (p : ℕ)
  deriving DecidableEq, Repr

/-- The memory of a `LockStlDB`: `key_table_`, the field tables, the value strings, and the
faults so far. -/
structure Store where
  keyTable : StlHashtable ℕ
  fields : Heap (StlHashtable ℕ)
  strings : Heap Str
  faults : List Fault

namespace Store

/-- The store that the constructor builds. -/
def empty : Store := ⟨.empty, .empty, .empty, []⟩

/-! ### Calls on the key table -/

/-- `key_table_->Get`. -/
def keyGet (key : Str) : Program Store (Option ℕ) :=
  .atomic fun s => (s.keyTable.get key, s)

/-- `key_table_->Insert`. -/
def keyInsert (key : Str) (t : ℕ) : Program Store Bool :=
  .atomic fun s =>
    let r := s.keyTable.insert key t
    (r.1, { s with keyTable := r.2 })

/-- `key_table_->Remove`. -/
def keyRemove (key : Str) : Program Store (Option ℕ) :=
  .atomic fun s =>
    let r := s.keyTable.remove key
    (r.1, { s with keyTable := r.2 })

/-- `key_table_->Entries`. -/
def keyEntries (order : IterationOrder VmpString) (key : Option Str) (n : Option ℕ) :
    Program Store (List (Str × ℕ)) :=
  .atomic fun s => (s.keyTable.entries order key n, s)

/-- `delete key_table_`. Nothing refers to the key table any more, so an empty one stands for it. -/
def deleteKeyTable : Program Store Unit :=
  .atomic fun s => ((), { s with keyTable := .empty })

/-! ### Calls on a field table -/

/-- A call into the field table `t` that returns a value and the new table; `dflt` stands for what
a call into a released table returns. -/
def onTable {α : Type} (t : ℕ) (dflt : α) (call : StlHashtable ℕ → α × StlHashtable ℕ) :
    Program Store α :=
  .atomic fun s =>
    match s.fields.get t with
    | none => (dflt, { s with faults := .usedTable t :: s.faults })
    | some table => ((call table).1, { s with fields := s.fields.write t (call table).2 })

/-- `field_table->Get`. -/
def fieldGet (t : ℕ) (field : Str) : Program Store (Option ℕ) :=
  onTable t none fun table => (table.get field, table)

/-- `field_table->Insert`. -/
def fieldInsert (t : ℕ) (field : Str) (value : ℕ) : Program Store Bool :=
  onTable t false fun table => table.insert field value

/-- `field_table->Update`. -/
def fieldUpdate (t : ℕ) (field : Str) (value : ℕ) : Program Store (Option ℕ) :=
  onTable t none fun table => table.update field value

/-- `field_table->Entries()`. -/
def fieldEntries (order : IterationOrder VmpString) (t : ℕ) : Program Store (List (Str × ℕ)) :=
  onTable t [] fun table => (table.entries order none none, table)

/-! ### Strings and tables -/

/-- Make a `std::string` from a value string. -/
def readString (p : ℕ) : Program Store Str :=
  .atomic fun s =>
    match s.strings.get p with
    | none => ([], { s with faults := .usedString p :: s.faults })
    | some str => (str, s)

/-- `LockStlDB::CopyString`. -/
def copyString (str : Str) : Program Store ℕ :=
  .atomic fun s =>
    let r := s.strings.alloc (cStr str)
    (r.1, { s with strings := r.2 })

/-- The release of one value string. -/
def release (p : ℕ) (s : Store) : Store :=
  match s.strings.get p with
  | none => { s with faults := .deletedString p :: s.faults }
  | some _ => { s with strings := s.strings.free p }

/-- `LockStlDB::DeleteString`. -/
def deleteString (p : ℕ) : Program Store Unit :=
  .atomic fun s => ((), s.release p)

/-- `LockStlDB::NewFieldHashtable`. -/
def newFieldHashtable : Program Store ℕ :=
  .atomic fun s =>
    let r := s.fields.alloc .empty
    (r.1, { s with fields := r.2 })

/-- `LockStlDB::DeleteFieldHashtable`: releases every value string of the table, then the
table. -/
def deleteFieldHashtable (order : IterationOrder VmpString) (t : ℕ) : Program Store Unit :=
  .atomic fun s =>
    match s.fields.get t with
    | none => ((), { s with faults := .usedTable t :: s.faults })
    | some table =>
      let s' := (table.entries order none none).foldl (fun s pair => s.release pair.2) s
      ((), { s' with fields := s'.fields.free t })

end Store

end YcsbC
