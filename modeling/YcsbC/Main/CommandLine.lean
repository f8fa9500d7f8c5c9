import YcsbC.Core.PropertyFiles

/-!
# The command line

`ParseCommandLine` reads the options of the program: pairs of an option and its value (`ycsbc.cc`).
Five options set a property; `-P` names a property file, which is loaded. The loop goes on as long
as the next argument starts with a dash; afterwards there must have been a pair and nothing may be
left.

## Main definitions

* `Ending`: how a call ends.
* `parseCommandLine`: `ParseCommandLine`.
* `OptionPairs`, `toArgs`: the grammar of the arguments.
* `applyPair`, `settings`: what a pair does to the properties.

## Main results

* `parseLoop_pairs`: the loop goes through pairs.
* `command_line_grammar`: which arguments are accepted, and what is returned.
-/

namespace YcsbC

open Utils (Thrown IFStream entries)

/-- The files that can be opened, with their texts. -/
abbrev FileSystem := Str → Option Str

/-- How a call ends: it returns, or it prints something and the program exits, or it throws, or it
reads `argv` out of bounds. -/
inductive Ending (α : Type) where
  | returned (result : α)
  | exited (output : Str)
  | threw (e : Thrown)
  | outOfBounds

namespace Ending

variable {α β : Type}

/-- A call after a call. -/
def bind : Ending α → (α → Ending β) → Ending β
  | returned result, f => f result
  | exited output, _ => exited output
  | threw e, _ => threw e
  | outOfBounds, _ => outOfBounds

instance : Monad Ending where
  pure := returned
  bind := bind

@[simp] theorem returned_bind (result : α) (f : α → Ending β) :
    returned result >>= f = f result := rfl

@[simp] theorem exited_bind (output : Str) (f : α → Ending β) :
    exited output >>= f = exited output := rfl

@[simp] theorem threw_bind (e : Thrown) (f : α → Ending β) : threw e >>= f = threw e := rfl

end Ending

/-- `UsageMessage`. -/
def usageMessage (command : Str) : Str :=
  "Usage: ".toList ++ command ++ " [options]\n".toList ++
  "Options:\n".toList ++
  "  -threads n: execute using n threads (default: 1)\n".toList ++
  "  -db dbname: specify the name of the DB to use (default: basic)\n".toList ++
  "  -P propertyfile: load properties from the given file. Multiple files can\n".toList ++
  "                   be specified, and will be processed in the order specified\n".toList

/-- The message for an argument that is no option. -/
def unknownOption (option : Str) : Str :=
  "Unknown option '".toList ++ option ++ "'\n".toList

/-- `StrStartWith`. -/
def strStartWith (str pre : Str) : Bool := pre.isPrefixOf str

/-- The options whose value is a property, with the property. -/
def propertyOptions : List (Str × Str) :=
  [("-threads".toList, "threadcount".toList), ("-db".toList, "dbname".toList),
    ("-host".toList, "host".toList), ("-port".toList, "port".toList),
    ("-slaves".toList, "slaves".toList)]

/-- The option whose value is a property file. -/
def fileOption : Str := "-P".toList

/-- `ifstream input(path)`. -/
def openFile (fs : FileSystem) (path : Str) : IFStream :=
  match fs path with
  | some text => .openText text
  | none => .notOpen

/-- `Load`, with the handler for a `std::string`. -/
def loadFile (fs : FileSystem) (path : Str) (props : Utils.Properties) :
    Ending Utils.Properties :=
  match Utils.Properties.load (openFile fs path) props with
  | .ok props => .returned props
  | .error (.string message) => .exited (message ++ ['\n'])
  | .error e => .threw e

section ParseCommandLine

variable (fs : FileSystem) (argc : ℕ) (argv : List Str)

/-- `argv[i]`. -/
def readArg (i : ℕ) : Ending Str :=
  match argv[i]? with
  | some arg => .returned arg
  | none => .outOfBounds

/-- `UsageMessage(argv[0])` and `exit(0)`. -/
def usageExit {α : Type} : Ending α := do
  let command ← readArg argv 0
  .exited (usageMessage command)

/-- The value of an option, at the position behind it. -/
def readValue (argindex : ℕ) : Ending Str :=
  if argindex ≥ argc then usageExit argv else readArg argv argindex

/-- The body of the loop: the option at `argindex` and the value behind it. -/
def parseOption (argindex : ℕ) (filename : Str) (props : Utils.Properties) :
    Ending (Str × Utils.Properties) := do
  let option ← readArg argv argindex
  match propertyOptions.lookup option with
  | some property =>
    let value ← readValue argc argv (argindex + 1)
    pure (filename, props.setProperty property value)
  | none =>
    if option = fileOption then
      let value ← readValue argc argv (argindex + 1)
      let props ← loadFile fs value props
      pure (value, props)
    else .exited (unknownOption option)

/-- The loop; each of its rounds takes two arguments. -/
def parseLoop (argindex : ℕ) (filename : Str) (props : Utils.Properties) :
    Ending (ℕ × Str × Utils.Properties) :=
  if argindex < argc then do
    let arg ← readArg argv argindex
    if strStartWith arg "-".toList then
      let r ← parseOption fs argc argv argindex filename props
      parseLoop (argindex + 2) r.1 r.2
    else pure (argindex, filename, props)
  else pure (argindex, filename, props)
termination_by argc - argindex

/-- `ParseCommandLine`. -/
def parseCommandLine (props : Utils.Properties) : Ending (Str × Utils.Properties) := do
  let (argindex, filename, props) ← parseLoop fs argc argv 1 [] props
  if argindex = 1 ∨ argindex ≠ argc then usageExit argv
  else pure (filename, props)

end ParseCommandLine

/-! ### The grammar -/

/-- An option. -/
def IsOption (option : Str) : Prop :=
  (propertyOptions.lookup option).isSome ∨ option = fileOption

instance : DecidablePred IsOption := fun _ => inferInstanceAs (Decidable (_ ∨ _))

/-- Pairs of an option and a value. -/
def OptionPairs (pairs : List (Str × Str)) : Prop := ∀ pair ∈ pairs, IsOption pair.1

instance : DecidablePred OptionPairs :=
  List.decidableBAll fun pair : Str × Str => IsOption pair.1

/-- The arguments that the pairs stand for. -/
def toArgs (pairs : List (Str × Str)) : List Str := pairs.flatMap fun pair => [pair.1, pair.2]

/-- `path` is the value of a `-P` that only pairs precede. -/
def NamedFile (args : List Str) (path : Str) : Prop :=
  ∃ pairs rest, OptionPairs pairs ∧ args = toArgs pairs ++ fileOption :: path :: rest

/-- What a pair sets. -/
def settings (fs : FileSystem) (pair : Str × Str) : List (Str × Str) :=
  match propertyOptions.lookup pair.1 with
  | some property => [(property, pair.2)]
  | none => entries ((fs pair.2).getD [])

/-- The properties after a pair. -/
def applyPair (fs : FileSystem) (props : Utils.Properties) (pair : Str × Str) :
    Utils.Properties :=
  ⟨overrideBy props.properties (settings fs pair)⟩

/-- The file name after a pair. -/
def fileNameAfter (filename : Str) (pair : Str × Str) : Str :=
  if pair.1 = fileOption then pair.2 else filename

/-- What is printed when the arguments are not accepted. -/
def IsMessage (argv : List Str) (message : Str) : Prop :=
  (∃ command ∈ argv.head?, message = usageMessage command) ∨
    ∃ option ∈ argv, message = unknownOption option

/-- No pair stands in front. -/
def NoPair (rest : List Str) : Prop :=
  ∀ option value others, rest = option :: value :: others → ¬ IsOption option

theorem noPair_nil : NoPair [] := fun _ _ _ h => absurd h.symm (List.cons_ne_nil _ _)

theorem toArgs_cons (pair : Str × Str) (pairs : List (Str × Str)) :
    toArgs (pair :: pairs) = pair.1 :: pair.2 :: toArgs pairs := rfl

theorem toArgs_append (pairs pairs' : List (Str × Str)) :
    toArgs (pairs ++ pairs') = toArgs pairs ++ toArgs pairs' :=
  List.flatMap_append

theorem length_toArgs (pairs : List (Str × Str)) : (toArgs pairs).length = 2 * pairs.length := by
  induction pairs with
  | nil => rfl
  | cons pair pairs ih =>
    rw [toArgs_cons, List.length_cons, List.length_cons, List.length_cons, ih]
    omega

theorem lookup_fileOption : propertyOptions.lookup fileOption = none := by decide

theorem mem_propertyOptions {option property : Str}
    (h : propertyOptions.lookup option = some property) : (option, property) ∈ propertyOptions := by
  obtain ⟨before, after, hsplit, -⟩ := List.lookup_eq_some_iff.1 h
  exact hsplit ▸ List.mem_append_right _ List.mem_cons_self

/-- An option whose value is a property is not `-P`. -/
theorem ne_fileOption {option property : Str}
    (hlookup : propertyOptions.lookup option = some property) : option ≠ fileOption := by
  rintro rfl
  rw [lookup_fileOption] at hlookup
  cases hlookup

/-- An option whose value is no property is `-P`. -/
theorem IsOption.eq_fileOption {option : Str} (h : IsOption option)
    (hlookup : propertyOptions.lookup option = none) : option = fileOption := by
  rw [IsOption, hlookup] at h
  exact h.resolve_left Bool.false_ne_true

/-- An option starts with a dash. -/
theorem IsOption.strStartWith {option : Str} (h : IsOption option) :
    strStartWith option "-".toList := by
  have hproperty : ∀ e ∈ propertyOptions, YcsbC.strStartWith e.1 "-".toList := by decide
  obtain h | rfl := h
  · obtain ⟨property, h⟩ := Option.isSome_iff_exists.1 h
    exact hproperty _ (mem_propertyOptions h)
  · decide

/-- Every list of arguments begins with as many pairs as it can. -/
theorem exists_pairs : ∀ args : List Str,
    ∃ pairs rest, args = toArgs pairs ++ rest ∧ OptionPairs pairs ∧ NoPair rest
  | [] => ⟨[], [], rfl, fun _ h => absurd h List.not_mem_nil, noPair_nil⟩
  | [option] => by
    refine ⟨[], [option], rfl, fun _ h => absurd h List.not_mem_nil, ?_⟩
    rintro _ _ _ ⟨⟩
  | option :: value :: args => by
    by_cases hoption : IsOption option
    · obtain ⟨pairs, rest, rfl, hpairs, hrest⟩ := exists_pairs args
      exact ⟨(option, value) :: pairs, rest, rfl, List.forall_mem_cons.2 ⟨hoption, hpairs⟩, hrest⟩
    · refine ⟨[], option :: value :: args, rfl, fun _ h => absurd h List.not_mem_nil, ?_⟩
      rintro _ _ _ ⟨⟩
      exact hoption

/-- A file that a pair names is a file that `-P` names. -/
theorem namedFile_of_mem {pairs : List (Str × Str)} {rest : List Str} {pair : Str × Str}
    (hpairs : OptionPairs pairs) (hmem : pair ∈ pairs) (hfile : pair.1 = fileOption) :
    NamedFile (toArgs pairs ++ rest) pair.2 := by
  obtain ⟨before, after, rfl⟩ := List.append_of_mem hmem
  refine ⟨before, toArgs after ++ rest, fun p hp => hpairs p (List.mem_append_left _ hp), ?_⟩
  rw [toArgs_append, toArgs_cons, hfile, List.append_assoc]
  rfl

/-! ### The properties and the file name -/

theorem properties_foldl_applyPair (fs : FileSystem) (pairs : List (Str × Str))
    (props : Utils.Properties) :
    (pairs.foldl (applyPair fs) props).properties =
      overrideBy props.properties (pairs.flatMap (settings fs)) := by
  induction pairs generalizing props with
  | nil => rfl
  | cons pair pairs ih => rw [List.foldl_cons, ih, List.flatMap_cons, overrideBy_append]; rfl

/-- The file name is the value of the last `-P`. -/
theorem foldl_fileNameAfter (filename : Str) (pairs : List (Str × Str)) :
    pairs.foldl fileNameAfter filename = (lastValue fileOption pairs).getD filename := by
  induction pairs using List.reverseRecOn with
  | nil => rfl
  | append_singleton pairs pair ih =>
    rw [List.foldl_append, ih, lastValue_concat, List.foldl_cons, List.foldl_nil, fileNameAfter]
    by_cases h : fileOption = pair.1
    · rw [if_pos h, if_pos h.symm]
      rfl
    · rw [if_neg h, if_neg (Ne.symm h)]

/-! ### The loop -/

section Loop

variable {fs : FileSystem} {argv rest : List Str} {i : ℕ} {pair : Str × Str}

theorem readArg_of_drop {arg : Str} (hdrop : argv.drop i = arg :: rest) :
    readArg argv i = .returned arg := by
  rw [readArg, ← List.head?_drop, hdrop]
  rfl

theorem lt_of_drop {arg : Str} (hdrop : argv.drop i = arg :: rest) : i < argv.length := by
  by_contra hle
  rw [List.drop_eq_nil_of_le (by omega)] at hdrop
  cases hdrop

theorem drop_succ_of_drop {arg : Str} (hdrop : argv.drop i = arg :: rest) :
    argv.drop (i + 1) = rest := by
  rw [← List.drop_drop, hdrop, List.drop_one, List.tail_cons]

theorem readValue_of_drop {value : Str} (hdrop : argv.drop i = value :: rest) :
    readValue argv.length argv i = .returned value := by
  have hlt := lt_of_drop hdrop
  rw [readValue, if_neg (by omega), readArg_of_drop hdrop]

/-- A round of the loop takes a pair. -/
theorem parseOption_pair (hdrop : argv.drop i = pair.1 :: pair.2 :: rest) (hpair : IsOption pair.1)
    (hfile : pair.1 = fileOption → (fs pair.2).isSome) (filename : Str)
    (props : Utils.Properties) :
    parseOption fs argv.length argv i filename props =
      .returned (fileNameAfter filename pair, applyPair fs props pair) := by
  have hvalue := readValue_of_drop (drop_succ_of_drop hdrop)
  rw [parseOption, readArg_of_drop hdrop, Ending.returned_bind, applyPair, settings, fileNameAfter]
  cases hlookup : propertyOptions.lookup pair.1 with
  | some property =>
    simp only [hvalue, Ending.returned_bind, if_neg (ne_fileOption hlookup)]
    rfl
  | none =>
    have heq := hpair.eq_fileOption hlookup
    obtain ⟨text, htext⟩ := Option.isSome_iff_exists.1 (hfile heq)
    simp only [if_pos heq, hvalue, Ending.returned_bind, loadFile, openFile, htext,
      Utils.Properties.load_openText]
    rfl

theorem parseLoop_pair (hdrop : argv.drop i = pair.1 :: pair.2 :: rest) (hpair : IsOption pair.1)
    (hfile : pair.1 = fileOption → (fs pair.2).isSome) (filename : Str)
    (props : Utils.Properties) :
    parseLoop fs argv.length argv i filename props =
      parseLoop fs argv.length argv (i + 2) (fileNameAfter filename pair)
        (applyPair fs props pair) := by
  conv_lhs => rw [parseLoop, if_pos (lt_of_drop hdrop), readArg_of_drop hdrop]
  rw [Ending.returned_bind, if_pos hpair.strStartWith, parseOption_pair hdrop hpair hfile,
    Ending.returned_bind]

/-- The loop goes through pairs. -/
theorem parseLoop_pairs {pairs : List (Str × Str)} (hdrop : argv.drop i = toArgs pairs ++ rest)
    (hpairs : OptionPairs pairs) (hfiles : ∀ pair ∈ pairs, pair.1 = fileOption →
      (fs pair.2).isSome) (filename : Str) (props : Utils.Properties) :
    parseLoop fs argv.length argv i filename props =
      parseLoop fs argv.length argv (i + 2 * pairs.length) (pairs.foldl fileNameAfter filename)
        (pairs.foldl (applyPair fs) props) := by
  induction pairs generalizing i filename props with
  | nil => rfl
  | cons pair pairs ih =>
    obtain ⟨hpair, hpairs⟩ := List.forall_mem_cons.1 hpairs
    obtain ⟨hfile, hfiles⟩ := List.forall_mem_cons.1 hfiles
    have htail : argv.drop (i + 2) = toArgs pairs ++ rest :=
      drop_succ_of_drop (drop_succ_of_drop hdrop)
    have hindex : i + 2 + 2 * pairs.length = i + 2 * (pairs.length + 1) := by omega
    rw [parseLoop_pair hdrop hpair hfile, ih htail hpairs hfiles, hindex, List.length_cons]
    rfl

theorem usageExit_of_head {α : Type} {command : Str} (hcommand : command ∈ argv.head?) :
    (usageExit argv : Ending α) = .exited (usageMessage command) := by
  rw [usageExit, readArg, ← List.head?_eq_getElem?, Option.mem_def.1 hcommand]
  rfl

/-- Where no pair stands, the loop stops or the program exits. -/
theorem parseLoop_noPair {command : Str} (hcommand : command ∈ argv.head?)
    (hdrop : argv.drop i = rest) (hrest : NoPair rest) (filename : Str)
    (props : Utils.Properties) :
    parseLoop fs argv.length argv i filename props = .returned (i, filename, props) ∨
      rest ≠ [] ∧ ∃ message, IsMessage argv message ∧
        parseLoop fs argv.length argv i filename props = .exited message := by
  rw [parseLoop]
  cases rest with
  | nil =>
    have hle := List.drop_eq_nil_iff.1 hdrop
    rw [if_neg (by omega)]
    exact .inl rfl
  | cons option rest =>
    rw [if_pos (lt_of_drop hdrop), readArg_of_drop hdrop, Ending.returned_bind]
    split_ifs with hdash
    · refine .inr ⟨List.cons_ne_nil _ _, ?_⟩
      rw [parseOption, readArg_of_drop hdrop, Ending.returned_bind]
      by_cases hoption : IsOption option
      · -- an option without a value
        have hlast : rest = [] := by
          cases rest with
          | nil => rfl
          | cons value others => exact absurd hoption (hrest option value others rfl)
        have hle := List.drop_eq_nil_iff.1 ((drop_succ_of_drop hdrop).trans hlast)
        refine ⟨usageMessage command, .inl ⟨command, hcommand, rfl⟩, ?_⟩
        have hvalue : readValue argv.length argv (i + 1) = .exited (usageMessage command) := by
          rw [readValue, if_pos (by omega), usageExit_of_head hcommand]
        cases hlookup : propertyOptions.lookup option with
        | some property => simp only [hvalue, Ending.exited_bind]
        | none =>
          simp only [if_pos (hoption.eq_fileOption hlookup), hvalue, Ending.exited_bind]
      · -- no option
        obtain ⟨hproperty, hfile⟩ := not_or.1 hoption
        rw [Option.not_isSome_iff_eq_none] at hproperty
        have hmem : option ∈ argv :=
          List.drop_subset i argv (hdrop ▸ List.mem_cons_self)
        refine ⟨unknownOption option, .inr ⟨option, hmem, rfl⟩, ?_⟩
        simp only [hproperty, if_neg hfile, Ending.exited_bind]
    · exact .inl rfl

end Loop

/-- What `ParseCommandLine` does with pairs and what follows them. -/
theorem parseCommandLine_pairs {fs : FileSystem} {command : Str} {pairs : List (Str × Str)}
    {rest : List Str} (hpairs : OptionPairs pairs) (hfiles : ∀ pair ∈ pairs,
      pair.1 = fileOption → (fs pair.2).isSome) (hrest : NoPair rest) {argv : List Str}
    (hargv : argv = command :: (toArgs pairs ++ rest)) (props : Utils.Properties) :
    (pairs ≠ [] ∧ rest = [] ∧ parseCommandLine fs argv.length argv props =
        .returned (pairs.foldl fileNameAfter [], pairs.foldl (applyPair fs) props)) ∨
      ((pairs = [] ∨ rest ≠ []) ∧ ∃ message, IsMessage argv message ∧
        parseCommandLine fs argv.length argv props = .exited message) := by
  have hcommand : command ∈ argv.head? := by rw [hargv]; rfl
  have hlength : argv.length = 1 + 2 * pairs.length + rest.length := by
    rw [hargv, List.length_cons, List.length_append, length_toArgs]
    omega
  have hdrop : argv.drop 1 = toArgs pairs ++ rest := by rw [hargv]; rfl
  have hrest' : argv.drop (1 + 2 * pairs.length) = rest := by
    rw [← List.drop_drop, hdrop, ← length_toArgs, List.drop_left]
  have husage : ∃ message, IsMessage argv message ∧
      (usageExit argv : Ending (Str × Utils.Properties)) = .exited message :=
    ⟨usageMessage command, .inl ⟨command, hcommand, rfl⟩, usageExit_of_head hcommand⟩
  rw [parseCommandLine, parseLoop_pairs hdrop hpairs hfiles]
  obtain hloop | ⟨hne, message, hmessage, hloop⟩ := parseLoop_noPair hcommand hrest' hrest
    (pairs.foldl fileNameAfter []) (pairs.foldl (applyPair fs) props)
  · rw [hloop, Ending.returned_bind]
    by_cases hgrammar : pairs ≠ [] ∧ rest = []
    · obtain ⟨hne, rfl⟩ := hgrammar
      have hpos := List.length_pos_iff.2 hne
      rw [List.length_nil] at hlength
      refine .inl ⟨hne, rfl, ?_⟩
      simp only
      rw [if_neg (by omega)]
      rfl
    · have hor : pairs = [] ∨ rest ≠ [] := by
        by_cases hp : pairs = []
        · exact .inl hp
        · exact .inr fun hr => hgrammar ⟨hp, hr⟩
      have hcheck : 1 + 2 * pairs.length = 1 ∨ 1 + 2 * pairs.length ≠ argv.length := by
        obtain rfl | hne := hor
        · exact .inl rfl
        · have hpos := List.length_pos_iff.2 hne
          exact .inr (by omega)
      simp only
      rw [if_pos hcheck]
      exact .inr ⟨hor, husage⟩
  · rw [hloop, Ending.exited_bind]
    exact .inr ⟨.inr hne, message, hmessage, rfl⟩

/-- **The command line parser accepts its grammar.** Every file that `-P` names can be opened. The
call returns iff the arguments are pairs of an option and a value, at least one of them; otherwise
it prints a message and the program exits. In no case does it read `argv` out of bounds or throw.
When it returns, the file name is the value of the last `-P`, and the properties are those before,
with what the pairs set and load applied from left to right: the last setting of a property
counts. -/
theorem command_line_grammar {fs : FileSystem} {argv : List Str} (hargc : 1 ≤ argv.length)
    (hfiles : ∀ path, NamedFile argv.tail path → (fs path).isSome) (props : Utils.Properties) :
    ((∃ result, parseCommandLine fs argv.length argv props = .returned result) ↔
        ∃ pairs, pairs ≠ [] ∧ OptionPairs pairs ∧ argv.tail = toArgs pairs) ∧
      ((∀ result, parseCommandLine fs argv.length argv props ≠ .returned result) →
        ∃ message, IsMessage argv message ∧
          parseCommandLine fs argv.length argv props = .exited message) ∧
      ∀ pairs, pairs ≠ [] → OptionPairs pairs → argv.tail = toArgs pairs →
        ∃ q, parseCommandLine fs argv.length argv props =
            .returned ((lastValue fileOption pairs).getD [], q) ∧
          q = pairs.foldl (applyPair fs) props ∧
          ∀ key defaultValue, q.getProperty key defaultValue =
            (lastValue key (pairs.flatMap (settings fs))).getD
              (props.getProperty key defaultValue) := by
  obtain ⟨command, args, rfl⟩ := List.exists_cons_of_length_pos hargc
  rw [List.tail_cons] at hfiles ⊢
  have hgrammar : ∀ pairs, pairs ≠ [] → OptionPairs pairs → args = toArgs pairs →
      parseCommandLine fs (command :: args).length (command :: args) props =
        .returned (pairs.foldl fileNameAfter [], pairs.foldl (applyPair fs) props) := by
    rintro pairs hne hpairs rfl
    have hreadable : ∀ pair ∈ pairs, pair.1 = fileOption → (fs pair.2).isSome :=
      fun pair hmem hfile => hfiles _ ((toArgs pairs).append_nil ▸
        namedFile_of_mem hpairs hmem hfile)
    obtain ⟨-, -, hparse⟩ | ⟨hor, -⟩ := parseCommandLine_pairs hpairs hreadable
      noPair_nil (by rw [List.append_nil]) props
    · exact hparse
    · exact absurd hor (by simpa using hne)
  obtain ⟨pairs, rest, rfl, hpairs, hrest⟩ := exists_pairs args
  have hreadable : ∀ pair ∈ pairs, pair.1 = fileOption → (fs pair.2).isSome :=
    fun pair hmem hfile => hfiles _ (namedFile_of_mem hpairs hmem hfile)
  have hends := parseCommandLine_pairs hpairs hreadable hrest
    (Eq.refl (command :: (toArgs pairs ++ rest))) props
  refine ⟨⟨?_, ?_⟩, ?_, ?_⟩
  · rintro ⟨result, hresult⟩
    obtain ⟨hne, rfl, -⟩ | ⟨-, message, -, hexit⟩ := hends
    · exact ⟨pairs, hne, hpairs, List.append_nil _⟩
    · cases hresult.symm.trans hexit
  · rintro ⟨pairs', hne, hpairs', hargs⟩
    exact ⟨_, hgrammar pairs' hne hpairs' hargs⟩
  · intro hnot
    obtain ⟨-, -, hparse⟩ | ⟨-, hexit⟩ := hends
    · exact absurd hparse (hnot _)
    · exact hexit
  · intro pairs' hne hpairs' hargs
    refine ⟨_, ?_, rfl, fun key defaultValue => ?_⟩
    · rw [hgrammar pairs' hne hpairs' hargs, foldl_fileNameAfter]
    · rw [Utils.Properties.getProperty, Utils.Properties.getProperty, properties_foldl_applyPair,
        lookup_overrideBy]
      cases lastValue key (pairs'.flatMap (settings fs)) <;> rfl

/-- A file sets the back end after `-db` has, and a second `-db` sets it again, to a value that
starts with a dash. -/
theorem command_line_grammar_three :
    ∃ q, parseCommandLine (fun _ => some "dbname=basic\n".toList) 7
        ["ycsbc".toList, "-db".toList, "redis".toList, "-P".toList, "w".toList, "-db".toList,
          "-P".toList] .empty = .returned ("w".toList, q) ∧
      q.getProperty "dbname".toList [] = "-P".toList := by
  let fs : FileSystem := fun _ => some "dbname=basic\n".toList
  have hfiles : ∀ path, NamedFile ["-db".toList, "redis".toList, "-P".toList, "w".toList,
      "-db".toList, "-P".toList] path → (fs path).isSome := fun _ _ => rfl
  obtain ⟨-, -, hpairs⟩ := command_line_grammar (show 1 ≤ ["ycsbc".toList, "-db".toList,
    "redis".toList, "-P".toList, "w".toList, "-db".toList, "-P".toList].length by decide)
    hfiles .empty
  obtain ⟨q, hparse, -, hget⟩ := hpairs [("-db".toList, "redis".toList),
    ("-P".toList, "w".toList), ("-db".toList, "-P".toList)] (by decide) (by decide) (by decide)
  exact ⟨q, hparse, (hget _ _).trans (by decide)⟩

end YcsbC
