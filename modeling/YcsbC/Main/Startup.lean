import YcsbC.Main.CommandLine

/-!
# The start of the program

`main` parses the command line and asks `DBFactory::CreateDB` for the back end that the property
`dbname` names (`ycsbc.cc`, `db/db_factory.cc`). Wrong arguments and an unknown name end in a
message. Two exceptions have no handler: `Load` throws a `utils::Exception` for a file that cannot
be opened, where only a `std::string` is caught, and `operator[]` throws when `dbname` is not set,
for which the usage message promises the back end `basic`.

## Main definitions

* `Backend`, `createDB`: `DBFactory::CreateDB`.
* `start`: `main` up to the database.

## Main results

* `start_eq`, `start_missing`: the start with and without all files.
* `startup_reports_iff`: when no exception escapes.
-/

namespace YcsbC

open Utils (Thrown entries)

/-- The databases that `CreateDB` makes. -/
inductive Backend where
  | basic
  | lockStl
  | redis (host : Str) (port slaves : ℤ)
  | tbbRand
  | tbbScan
  | ceph
  | realCeph
  | xihu
  deriving DecidableEq, Repr

/-- `std::stoi`, with what it throws. -/
def stoiOrThrow (s : Str) : Except Thrown ℤ :=
  match stoi s with
  | some n => .ok n
  | none =>
    if (readSign (s.dropWhile isSpace)).2.takeWhile Char.isDigit = [] then .error .invalidArgument
    else .error .outOfRange

/-- The name of the property that chooses the database. -/
def dbnameProperty : Str := "dbname".toList

/-- `DBFactory::CreateDB`; `none` is its null pointer. The constructors succeed. -/
def createDB (props : Utils.Properties) : Except Thrown (Option Backend) := do
  let dbname ← props.get dbnameProperty
  if dbname = "basic".toList then
    pure (some .basic)
  else if dbname = "lock_stl".toList then
    pure (some .lockStl)
  else if dbname = "redis".toList then
    let port ← stoiOrThrow (← props.get "port".toList)
    let slaves ← stoiOrThrow (← props.get "slaves".toList)
    let host ← props.get "host".toList
    pure (some (.redis host port slaves))
  else if dbname = "tbb_rand".toList then
    pure (some .tbbRand)
  else if dbname = "tbb_scan".toList then
    pure (some .tbbScan)
  else if dbname = "ceph".toList then
    pure (some .ceph)
  else if dbname = "real_ceph".toList then
    pure (some .realCeph)
  else if dbname = "xihu".toList then
    pure (some .xihu)
  else pure none

/-- The message for a name that `CreateDB` does not know. -/
def unknownDatabase (dbname : Str) : Str :=
  "Unknown database name ".toList ++ dbname ++ ['\n']

/-- A call outside of every handler. -/
def unhandled {α : Type} : Except Thrown α → Ending α
  | .ok result => .returned result
  | .error e => .threw e

/-- `main`, up to the database: the file name, the properties and the database. -/
def start (fs : FileSystem) (argc : ℕ) (argv : List Str) :
    Ending (Str × Utils.Properties × Backend) := do
  let (fileName, props) ← parseCommandLine fs argc argv .empty
  match ← unhandled (createDB props) with
  | some db => pure (fileName, props, db)
  | none =>
    let dbname ← unhandled (props.get dbnameProperty)
    .exited (unknownDatabase dbname)

/-! ### The database -/

theorem Utils.Properties.get_of_lookup {props : Utils.Properties} {key value : Str}
    (h : props.properties.lookup key = some value) : props.get key = .ok value := by
  rw [Utils.Properties.get, h]

theorem Utils.Properties.get_of_lookup_none {props : Utils.Properties} {key : Str}
    (h : props.properties.lookup key = none) : props.get key = .error .outOfRange := by
  rw [Utils.Properties.get, h]

theorem exists_ok_ite {ε α : Type} {c : Prop} [Decidable c] {a b : Except ε α}
    (ha : ∃ result, a = .ok result) (hb : ∃ result, b = .ok result) :
    ∃ result, (if c then a else b) = .ok result := by
  split_ifs
  · exact ha
  · exact hb

theorem createDB_of_get {props : Utils.Properties} {dbname : Str}
    (hget : props.get dbnameProperty = .ok dbname) (hredis : dbname ≠ "redis".toList) :
    ∃ db, createDB props = .ok db := by
  rw [createDB, hget]
  simp only [Except.bind, bind, if_neg hredis]
  -- one level for each name
  iterate 7 refine exists_ok_ite ⟨_, rfl⟩ ?_
  exact ⟨_, rfl⟩

/-! ### The start -/

section Start

variable {fs : FileSystem} {argv : List Str} {command : Str} {pairs : List (Str × Str)}

theorem start_eq (hne : pairs ≠ []) (hpairs : OptionPairs pairs) (hfiles : ∀ pair ∈ pairs,
    pair.1 = fileOption → (fs pair.2).isSome) (hargv : argv = command :: toArgs pairs) :
    ∃ fileName props, parseCommandLine fs argv.length argv .empty = .returned (fileName, props) ∧
      ∀ key, props.properties.lookup key = lastValue key (pairs.flatMap (settings fs)) := by
  rw [← List.append_nil (toArgs pairs)] at hargv
  obtain ⟨-, -, hparse⟩ | ⟨hor, -⟩ :=
    parseCommandLine_pairs hpairs hfiles noPair_nil hargv .empty
  · refine ⟨_, _, hparse, fun key => ?_⟩
    rw [properties_foldl_applyPair, lookup_overrideBy]
    exact Option.or_none
  · exact absurd hor (by simpa using hne)

theorem parseOption_missing {i : ℕ} {path : Str} {rest : List Str}
    (hdrop : argv.drop i = fileOption :: path :: rest) (hpath : fs path = none) (filename : Str)
    (props : Utils.Properties) :
    parseOption fs argv.length argv i filename props =
      .threw (.exception "File not open!".toList) := by
  have hvalue := readValue_of_drop (drop_succ_of_drop hdrop)
  rw [parseOption, readArg_of_drop hdrop, Ending.returned_bind, lookup_fileOption]
  simp only [if_pos, hvalue, Ending.returned_bind, loadFile, openFile, hpath]
  rfl

/-- The loop stops at the first file that cannot be opened, with an exception. -/
theorem parseLoop_missing {i : ℕ} (hdrop : argv.drop i = toArgs pairs) (hpairs : OptionPairs pairs)
    (hmissing : ∃ pair ∈ pairs, pair.1 = fileOption ∧ fs pair.2 = none) (filename : Str)
    (props : Utils.Properties) :
    parseLoop fs argv.length argv i filename props =
      .threw (.exception "File not open!".toList) := by
  induction pairs generalizing i filename props with
  | nil =>
    obtain ⟨pair, hmem, -⟩ := hmissing
    exact absurd hmem List.not_mem_nil
  | cons pair pairs ih =>
    obtain ⟨hpair, hpairs⟩ := List.forall_mem_cons.1 hpairs
    by_cases hhead : pair.1 = fileOption ∧ fs pair.2 = none
    · have hdash := hpair.strStartWith
      rw [toArgs_cons, hhead.1] at hdrop
      rw [hhead.1] at hdash
      rw [parseLoop, if_pos (lt_of_drop hdrop), readArg_of_drop hdrop, Ending.returned_bind,
        if_pos hdash, parseOption_missing hdrop hhead.2, Ending.threw_bind]
    · have hfile : pair.1 = fileOption → (fs pair.2).isSome := fun h =>
        Option.isSome_iff_ne_none.2 fun hnone => hhead ⟨h, hnone⟩
      have htail : argv.drop (i + 2) = toArgs pairs := drop_succ_of_drop (drop_succ_of_drop hdrop)
      rw [parseLoop_pair hdrop hpair hfile]
      refine ih htail hpairs ?_ _ _
      obtain ⟨pair', hmem, hpair'⟩ := hmissing
      obtain rfl | hmem := List.mem_cons.1 hmem
      · exact absurd hpair' hhead
      · exact ⟨pair', hmem, hpair'⟩

/-- A file cannot be opened: the exception has no handler. -/
theorem start_missing (hpairs : OptionPairs pairs) (hmissing : ∃ pair ∈ pairs,
    pair.1 = fileOption ∧ fs pair.2 = none) (hargv : argv = command :: toArgs pairs) :
    start fs argv.length argv = .threw (.exception "File not open!".toList) := by
  have hdrop : argv.drop 1 = toArgs pairs := by rw [hargv]; rfl
  rw [start, parseCommandLine, parseLoop_missing hdrop hpairs hmissing, Ending.threw_bind,
    Ending.threw_bind]

end Start

/-- The pair sets `dbname`: it is a `-db`, or it names a file with a line for `dbname`. -/
def SetsDbname (fs : FileSystem) (pair : Str × Str) : Prop :=
  pair.1 = "-db".toList ∨
    pair.1 = fileOption ∧ ∃ text ∈ fs pair.2, dbnameProperty ∈ (entries text).map Prod.fst

theorem mem_settings_iff {fs : FileSystem} {pair : Str × Str} (hpair : IsOption pair.1)
    (hfile : pair.1 = fileOption → (fs pair.2).isSome) :
    dbnameProperty ∈ (settings fs pair).map Prod.fst ↔ SetsDbname fs pair := by
  have hproperty : ∀ e ∈ propertyOptions, dbnameProperty = e.2 ↔ e.1 = "-db".toList := by decide
  rw [settings, SetsDbname]
  cases hlookup : propertyOptions.lookup pair.1 with
  | some property =>
    have hne := ne_fileOption hlookup
    have hoption := hproperty _ (mem_propertyOptions hlookup)
    simpa only [List.map_cons, List.map_nil, List.mem_singleton, hne, false_and, or_false]
      using hoption
  | none =>
    have heq := hpair.eq_fileOption hlookup
    have hne : fileOption ≠ "-db".toList := by decide
    obtain ⟨text, htext⟩ := Option.isSome_iff_exists.1 (hfile heq)
    simp only [htext, Option.getD_some, heq, hne, false_or, true_and, Option.mem_some_iff,
      exists_eq_left']

/-- Every file that `-P` names can be opened, and some pair sets `dbname`. -/
structure Startable (fs : FileSystem) (pairs : List (Str × Str)) : Prop where
  files : ∀ pair ∈ pairs, pair.1 = fileOption → (fs pair.2).isSome
  dbname : ∃ pair ∈ pairs, SetsDbname fs pair

section Reports

variable {fs : FileSystem} {argv : List Str} {command : Str} {pairs : List (Str × Str)}

/-- With all files, the start goes on iff `dbname` is set. -/
theorem start_of_files (hne : pairs ≠ []) (hpairs : OptionPairs pairs) (hfiles : ∀ pair ∈ pairs,
      pair.1 = fileOption → (fs pair.2).isSome) (hargv : argv = command :: toArgs pairs)
    (hredis : lastValue dbnameProperty (pairs.flatMap (settings fs)) ≠ some "redis".toList) :
    (∃ pair ∈ pairs, SetsDbname fs pair) ∧
        ((∃ result, start fs argv.length argv = .returned result) ∨
          ∃ message, start fs argv.length argv = .exited message) ∨
      (¬ ∃ pair ∈ pairs, SetsDbname fs pair) ∧
        start fs argv.length argv = .threw .outOfRange := by
  obtain ⟨fileName, props, hparse, hlookup⟩ := start_eq hne hpairs hfiles hargv
  have hset := hlookup dbnameProperty
  have hmem : dbnameProperty ∈ (pairs.flatMap (settings fs)).map Prod.fst ↔
      ∃ pair ∈ pairs, SetsDbname fs pair := by
    rw [List.map_flatMap, List.mem_flatMap]
    exact exists_congr fun pair => and_congr_right fun hpair =>
      mem_settings_iff (hpairs pair hpair) (hfiles pair hpair)
  rw [← hmem, start, hparse, Ending.returned_bind]
  cases hvalue : lastValue dbnameProperty (pairs.flatMap (settings fs)) with
  | none =>
    have hget := Utils.Properties.get_of_lookup_none (hset.trans hvalue)
    refine .inr ⟨lastValue_eq_none_iff.1 hvalue, ?_⟩
    simp only [createDB, hget]
    rfl
  | some dbname =>
    have hget := Utils.Properties.get_of_lookup (hset.trans hvalue)
    obtain ⟨db, hdb⟩ := createDB_of_get hget fun h => hredis (hvalue.trans (congrArg _ h))
    have hin : dbnameProperty ∈ (pairs.flatMap (settings fs)).map Prod.fst := by
      obtain ⟨before, after, hsplit, -⟩ := lastValue_eq_some_iff.1 hvalue
      rw [hsplit, List.map_append]
      exact List.mem_append_right _ List.mem_cons_self
    refine .inl ⟨hin, ?_⟩
    simp only [hdb, hget, unhandled, Ending.returned_bind]
    cases db with
    | none => exact .inr ⟨_, rfl⟩
    | some db => exact .inl ⟨_, rfl⟩

/-- **When the start reports its errors.** The arguments are accepted by the grammar, and the
database that they choose is not Redis. The start gives a database or prints a message iff every
file that `-P` names can be opened and some pair sets `dbname`; otherwise an exception escapes. -/
theorem startup_reports_iff (hne : pairs ≠ []) (hpairs : OptionPairs pairs)
    (hargv : argv = command :: toArgs pairs)
    (hredis : lastValue dbnameProperty (pairs.flatMap (settings fs)) ≠ some "redis".toList) :
    (((∃ result, start fs argv.length argv = .returned result) ∨
        ∃ message, start fs argv.length argv = .exited message) ↔ Startable fs pairs) ∧
      ((∃ e, start fs argv.length argv = .threw e) ↔ ¬ Startable fs pairs) := by
  have hends : Startable fs pairs ∧ ((∃ result, start fs argv.length argv = .returned result) ∨
        ∃ message, start fs argv.length argv = .exited message) ∨
      ¬ Startable fs pairs ∧ ∃ e, start fs argv.length argv = .threw e := by
    by_cases hfiles : ∀ pair ∈ pairs, pair.1 = fileOption → (fs pair.2).isSome
    · obtain ⟨hset, hends⟩ | ⟨hunset, hthrew⟩ := start_of_files hne hpairs hfiles hargv hredis
      · exact .inl ⟨⟨hfiles, hset⟩, hends⟩
      · exact .inr ⟨fun h => hunset h.dbname, _, hthrew⟩
    · refine .inr ⟨fun h => hfiles h.files, _, start_missing hpairs ?_ hargv⟩
      push Not at hfiles
      obtain ⟨pair, hmem, hfile, hnone⟩ := hfiles
      exact ⟨pair, hmem, hfile, by simpa using hnone⟩
  obtain ⟨hstartable, hends⟩ | ⟨hnot, e, hthrew⟩ := hends
  · refine ⟨⟨fun _ => hstartable, fun _ => hends⟩, ⟨?_, fun h => absurd hstartable h⟩⟩
    rintro ⟨e, hthrew⟩
    obtain ⟨result, hresult⟩ | ⟨message, hmessage⟩ := hends
    · cases hthrew.symm.trans hresult
    · cases hthrew.symm.trans hmessage
  · rw [hthrew]
    refine ⟨⟨?_, fun h => absurd h hnot⟩, ⟨fun _ => hnot, fun _ => ⟨e, rfl⟩⟩⟩
    rintro (⟨result, ⟨⟩⟩ | ⟨message, ⟨⟩⟩)

end Reports

/-- A file of two lines, the second of which names the database. -/
def databaseFile : FileSystem := fun path =>
  if path = "w".toList then some "recordcount=3\ndbname=lock_stl\n".toList else none

/-- The database is named by a file that `-P` opens: the start reports no exception. -/
theorem startup_reports_iff_file :
    let argv := ["ycsbc".toList, "-P".toList, "w".toList, "-threads".toList, "2".toList]
    ((∃ result, start databaseFile 5 argv = .returned result) ∨
        ∃ message, start databaseFile 5 argv = .exited message) ∧
      ¬ ∃ e, start databaseFile 5 argv = .threw e := by
  have hpairs : OptionPairs [("-P".toList, "w".toList), ("-threads".toList, "2".toList)] := by
    decide
  have hargv : ["ycsbc".toList, "-P".toList, "w".toList, "-threads".toList, "2".toList] =
      "ycsbc".toList :: toArgs [("-P".toList, "w".toList), ("-threads".toList, "2".toList)] := rfl
  have hredis : lastValue dbnameProperty ([("-P".toList, "w".toList),
      ("-threads".toList, "2".toList)].flatMap (settings databaseFile)) ≠ some "redis".toList := by
    decide
  have hstartable : Startable databaseFile
      [("-P".toList, "w".toList), ("-threads".toList, "2".toList)] := by
    refine ⟨by decide, _, List.mem_cons_self, .inr ⟨rfl, _, rfl, ?_⟩⟩
    decide
  obtain ⟨hends, hthrows⟩ := startup_reports_iff (List.cons_ne_nil _ _) hpairs hargv hredis
  exact ⟨hends.2 hstartable, fun h => hthrows.1 h hstartable⟩

/-- Without `-db` and files `operator[]` throws, although the usage message promises a default; and
a file that is not there makes `Load` throw what is not caught. -/
theorem startup_throws :
    start (fun _ => none) 3 ["ycsbc".toList, "-threads".toList, "1".toList] =
        .threw .outOfRange ∧
      start (fun _ => none) 5 ["ycsbc".toList, "-db".toList, "basic".toList, "-P".toList,
        "w".toList] = .threw (.exception "File not open!".toList) := by
  constructor
  · have hpairs : OptionPairs [("-threads".toList, "1".toList)] := by decide
    have hargv : ["ycsbc".toList, "-threads".toList, "1".toList] =
        "ycsbc".toList :: toArgs [("-threads".toList, "1".toList)] := rfl
    let fs : FileSystem := fun _ => none
    have hfiles : ∀ pair ∈ [("-threads".toList, "1".toList)], pair.1 = fileOption →
        (fs pair.2).isSome :=
      List.forall_mem_singleton.2 fun h => absurd h (by decide)
    have hredis : lastValue dbnameProperty ([("-threads".toList, "1".toList)].flatMap
        (settings fs)) ≠ some "redis".toList := by decide
    obtain ⟨⟨pair, hmem, hset⟩, -⟩ | ⟨-, hthrew⟩ :=
      start_of_files (List.cons_ne_nil _ _) hpairs hfiles hargv hredis
    · rw [List.mem_singleton.1 hmem] at hset
      exact absurd hset (not_or.2 ⟨by decide, fun h => absurd h.1 (by decide)⟩)
    · exact hthrew
  · have hpairs : OptionPairs [("-db".toList, "basic".toList), ("-P".toList, "w".toList)] := by
      decide
    exact start_missing hpairs
      ⟨_, List.mem_cons_of_mem _ (List.mem_singleton_self _), rfl, rfl⟩
      (Eq.refl ("ycsbc".toList :: toArgs [("-db".toList, "basic".toList),
        ("-P".toList, "w".toList)]))

end YcsbC
