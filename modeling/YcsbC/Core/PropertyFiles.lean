import YcsbC.Foundation.Lines
import YcsbC.Foundation.Overrides
import YcsbC.Lib.Stoi

/-!
# Property files

`utils::Properties` holds the settings of a run and reads them from files (`core/properties.h`). A
file is read line by line: a line that starts with `#` and a line without `=` are skipped; of any
other line the part before the first `=` is the key and the part behind it the value, both without
the white space around them. A later line overrides an earlier one.

## Main definitions

* `Utils.Properties`, `getProperty`, `get`, `setProperty`: the settings.
* `Utils.IFStream`, `getline`: the file that is read.
* `Utils.Properties.loadLine`, `load`: `Load`.
* `Utils.entries`: the entries of a text.
* `Utils.Storable`, `Utils.Lists`: entries that a file can hold, and the lines that list them.

## Main results

* `Utils.Properties.loadLoop_eq`: `Load` goes through the lines of the text in order.
* `Utils.Properties.load_openText`: the settings are overridden by the entries of the text.
* `Utils.load_overrides`: these are the entries that the text lists.
-/

namespace YcsbC

namespace Utils

/-- What is thrown: a `std::string`, a `utils::Exception`, a `std::out_of_range`, a
`std::invalid_argument`. -/
inductive Thrown where
  | string (message : Str)
  | exception (message : Str)
  | outOfRange
  | invalidArgument
  deriving DecidableEq, Repr

/-- `Trim`. -/
def trim (str : Str) : Str := strip isSpace str

/-- `utils::Properties`. -/
structure Properties where
  properties : Finmap fun _ : Str => Str

/-- An `ifstream`: the characters that have not been read, and whether the end has been hit. No read
fails before the end, so there is no `badbit`. -/
structure IFStream where
  isOpen : Bool
  rest : Str
  eofbit : Bool

namespace IFStream

/-- The stream after its file, with the given text, has been opened. -/
def openText (text : Str) : IFStream := ⟨true, text, false⟩

/-- The stream when there is no such file. -/
def notOpen : IFStream := ⟨false, [], false⟩

/-- `std::getline`: the characters up to the next newline, or up to the end. -/
def getline (input : IFStream) : Str × IFStream :=
  if input.eofbit then ([], input)
  else (input.rest.takeWhile (· ≠ '\n'),
    match input.rest.dropWhile (· ≠ '\n') with
    | [] => { input with rest := [], eofbit := true }
    | _ :: rest => { input with rest := rest })

/-- How often `getline` can be called before the end is hit, at most. -/
def remaining (input : IFStream) : ℕ := if input.eofbit then 0 else input.rest.length + 1

theorem remaining_getline {input : IFStream} (h : ¬ input.eofbit) :
    input.getline.2.remaining < input.remaining := by
  have hlength := (input.rest.dropWhile_suffix (· ≠ '\n')).length_le
  rw [getline, remaining, remaining, if_neg h, if_neg h]
  split
  · exact Nat.succ_pos _
  · rename_i c rest hrest
    rw [hrest, List.length_cons] at hlength
    simp only [h, Bool.false_eq_true, if_false]
    omega

end IFStream

namespace Properties

/-- Settings without any entry. -/
def empty : Properties := ⟨∅⟩

/-- `GetProperty`. -/
def getProperty (key defaultValue : Str) (p : Properties) : Str :=
  (p.properties.lookup key).getD defaultValue

/-- `operator[]`, which is `map::at`. -/
def get (key : Str) (p : Properties) : Except Thrown Str :=
  match p.properties.lookup key with
  | some value => .ok value
  | none => .error .outOfRange

/-- `SetProperty`. -/
def setProperty (key value : Str) (p : Properties) : Properties :=
  ⟨p.properties.insert key value⟩

/-- What `Load` does with a line. -/
def loadLine (p : Properties) (line : Str) : Properties :=
  if line.head? = some '#' then p
  else
    match line.idxOf? '=' with
    | none => p
    | some pos => p.setProperty (trim (line.take pos)) (trim (line.drop (pos + 1)))

/-- The loop of `Load`. -/
def loadLoop (input : IFStream) (p : Properties) : Properties :=
  if input.eofbit then p
  else loadLoop input.getline.2 (p.loadLine input.getline.1)
termination_by input.remaining
decreasing_by exact IFStream.remaining_getline ‹_›

/-- `Load`, which returns `true` or throws. -/
def load (input : IFStream) (p : Properties) : Except Thrown Properties :=
  if input.isOpen then .ok (loadLoop input p)
  else .error (.exception "File not open!".toList)

/-- `Load` goes through the lines of the text in order. -/
theorem loadLoop_eq (input : IFStream) (p : Properties) (h : ¬ input.eofbit) :
    loadLoop input p = (input.rest.splitOn '\n').foldl loadLine p := by
  induction input, p using loadLoop.induct with
  | case1 input p heof => exact absurd heof h
  | case2 input p _ ih =>
    rw [loadLoop, if_neg h, splitOn_eq_cons, List.foldl_cons]
    rw [IFStream.getline, if_neg h] at ih ⊢
    cases hrest : input.rest.dropWhile (· ≠ '\n') with
    | nil =>
      simp only
      rw [loadLoop, if_pos rfl, List.foldl_nil]
    | cons c rest =>
      simp only [hrest] at ih ⊢
      exact ih h

end Properties

/-! ### The entries of a text -/

/-- The entry of a line. -/
def lineEntry (line : Str) : Option (Str × Str) :=
  if line.head? = some '#' then none
  else (line.idxOf? '=').map fun pos => (trim (line.take pos), trim (line.drop (pos + 1)))

/-- The entries of a text, in order. -/
def entries (text : Str) : List (Str × Str) := (text.splitOn '\n').filterMap lineEntry

namespace Properties

theorem loadLine_eq (p : Properties) (line : Str) :
    p.loadLine line = ⟨overrideBy p.properties (lineEntry line).toList⟩ := by
  rw [loadLine, lineEntry]
  split_ifs
  · rfl
  · cases line.idxOf? '=' <;> rfl

theorem foldl_loadLine (lines : List Str) (p : Properties) :
    lines.foldl loadLine p = ⟨overrideBy p.properties (lines.filterMap lineEntry)⟩ := by
  induction lines generalizing p with
  | nil => rfl
  | cons line lines ih =>
    rw [List.foldl_cons, loadLine_eq, ih, ← overrideBy_append, List.filterMap_cons]
    cases lineEntry line <;> rfl

/-- `Load` overrides the settings by the entries of the text. -/
theorem load_openText (text : Str) (p : Properties) :
    load (.openText text) p = .ok ⟨overrideBy p.properties (entries text)⟩ := by
  rw [load, if_pos (show (IFStream.openText text).isOpen from rfl),
    loadLoop_eq _ _ Bool.false_ne_true, foldl_loadLine]
  rfl

end Properties

/-! ### What a file lists -/

/-- An entry that a line can hold. -/
structure Storable (e : Str × Str) : Prop where
  noEquals : '=' ∉ e.1
  noNewlineKey : '\n' ∉ e.1
  noNewlineValue : '\n' ∉ e.2
  noComment : e.1.head? ≠ some '#'
  key : Stripped isSpace e.1
  value : Stripped isSpace e.2

instance (e : Str × Str) : Decidable (Storable e) :=
  decidable_of_iff ('=' ∉ e.1 ∧ '\n' ∉ e.1 ∧ '\n' ∉ e.2 ∧ e.1.head? ≠ some '#' ∧
      Stripped isSpace e.1 ∧ Stripped isSpace e.2)
    ⟨fun ⟨h₁, h₂, h₃, h₄, h₅, h₆⟩ => ⟨h₁, h₂, h₃, h₄, h₅, h₆⟩,
      fun h => ⟨h.1, h.2, h.3, h.4, h.5, h.6⟩⟩

/-- White space within a line. -/
def Margin (s : Str) : Prop := ∀ c ∈ s, isSpace c = true ∧ c ≠ '\n'

instance : DecidablePred Margin :=
  List.decidableBAll fun c => isSpace c = true ∧ c ≠ '\n'

/-- A line that `Load` skips. -/
def Skipped (line : Str) : Prop :=
  '\n' ∉ line ∧ (line = [] ∨ line.head? = some '#' ∨ '=' ∉ line)

instance : DecidablePred Skipped := fun line =>
  inferInstanceAs (Decidable ('\n' ∉ line ∧ (line = [] ∨ line.head? = some '#' ∨ '=' ∉ line)))

/-- The lines list the entries in order, each with white space around its key and its value, with
skipped lines between them. -/
inductive Lists : List (Str × Str) → List Str → Prop
  | nil : Lists [] []
  | entry {es : List (Str × Str)} {lines : List Str} {e : Str × Str} {m₁ m₂ m₃ m₄ : Str}
      (he : Storable e) (h₁ : Margin m₁) (h₂ : Margin m₂) (h₃ : Margin m₃) (h₄ : Margin m₄)
      (h : Lists es lines) :
      Lists (e :: es) (((m₁ ++ (e.1 ++ m₂)) ++ '=' :: (m₃ ++ (e.2 ++ m₄))) :: lines)
  | skip {es : List (Str × Str)} {lines : List Str} {line : Str} (hline : Skipped line)
      (h : Lists es lines) : Lists es (line :: lines)

/-- A text with these lines, with or without a newline at its end. -/
def HasLines (text : Str) (lines : List Str) : Prop :=
  text = ['\n'].intercalate lines ∨ text = ['\n'].intercalate lines ++ ['\n']

theorem Margin.not_mem_equals {s : Str} (h : Margin s) : '=' ∉ s := fun hmem =>
  absurd (h _ hmem).1 (by decide)

theorem Margin.not_mem_newline {s : Str} (h : Margin s) : '\n' ∉ s := fun hmem =>
  (h _ hmem).2 rfl

/-- A margin is not the beginning of a comment. -/
theorem Margin.head?_append {m s : Str} (h : Margin m) (hs : s.head? ≠ some '#') :
    (m ++ s).head? ≠ some '#' := by
  cases m with
  | nil => exact hs
  | cons c m =>
    rintro ⟨⟩
    exact absurd (h '#' List.mem_cons_self).1 (by decide)

theorem Lists.not_mem_newline {es : List (Str × Str)} {lines : List Str} (h : Lists es lines) :
    ∀ line ∈ lines, '\n' ∉ line := by
  induction h with
  | nil => exact fun _ hmem => absurd hmem List.not_mem_nil
  | entry he h₁ h₂ h₃ h₄ _ ih =>
    refine List.forall_mem_cons.2 ⟨?_, ih⟩
    have hne : '\n' ≠ '=' := by decide
    simp only [List.mem_append, List.mem_cons, not_or]
    exact ⟨⟨h₁.not_mem_newline, he.noNewlineKey, h₂.not_mem_newline⟩, hne, h₃.not_mem_newline,
      he.noNewlineValue, h₄.not_mem_newline⟩
  | skip hline _ ih => exact List.forall_mem_cons.2 ⟨hline.1, ih⟩

theorem lineEntry_skipped {line : Str} (h : Skipped line) : lineEntry line = none := by
  rw [lineEntry]
  obtain ⟨-, rfl | hcomment | hequals⟩ := h
  · rfl
  · rw [if_pos hcomment]
  · rw [List.idxOf?_eq_none_iff.2 hequals]
    split_ifs <;> rfl

/-- The key and the value of a line are found and stripped. -/
theorem lineEntry_listed {e : Str × Str} {m₁ m₂ m₃ m₄ : Str} (he : Storable e) (h₁ : Margin m₁)
    (h₂ : Margin m₂) (h₃ : Margin m₃) (h₄ : Margin m₄) :
    lineEntry ((m₁ ++ (e.1 ++ m₂)) ++ '=' :: (m₃ ++ (e.2 ++ m₄))) = some e := by
  have hequals : '=' ∉ m₁ ++ (e.1 ++ m₂) := by
    simp only [List.mem_append, not_or]
    exact ⟨h₁.not_mem_equals, he.noEquals, h₂.not_mem_equals⟩
  have hhead : ((m₁ ++ (e.1 ++ m₂)) ++ '=' :: (m₃ ++ (e.2 ++ m₄))).head? ≠ some '#' := by
    rw [List.append_assoc, List.append_assoc]
    refine h₁.head?_append ?_
    have hbehind := h₂.head?_append (s := '=' :: (m₃ ++ (e.2 ++ m₄))) (by simp)
    have hcomment := he.noComment
    cases hkey : e.1 with
    | nil => exact hbehind
    | cons c key => rwa [hkey] at hcomment
  have hkey : trim (m₁ ++ (e.1 ++ m₂)) = e.1 :=
    strip_append_append he.key (fun c hc => (h₁ c hc).1) fun c hc => (h₂ c hc).1
  have hvalue : trim (m₃ ++ (e.2 ++ m₄)) = e.2 :=
    strip_append_append he.value (fun c hc => (h₃ c hc).1) fun c hc => (h₄ c hc).1
  rw [lineEntry, if_neg hhead, idxOf?_append_cons_self hequals]
  simp only [Option.map_some, List.take_left, hkey, List.drop_length_add_append, List.drop_one,
    List.tail_cons, hvalue]

theorem Lists.filterMap_lineEntry {es : List (Str × Str)} {lines : List Str}
    (h : Lists es lines) : lines.filterMap lineEntry = es := by
  induction h with
  | nil => rfl
  | entry he h₁ h₂ h₃ h₄ _ ih =>
    rw [List.filterMap_cons, lineEntry_listed he h₁ h₂ h₃ h₄, ih]
  | skip hline _ ih => rw [List.filterMap_cons, lineEntry_skipped hline, ih]

/-- The empty line that a newline at the end leaves has no entry. -/
theorem HasLines.entries {text : Str} {lines : List Str} (htext : HasLines text lines)
    (hlines : ∀ line ∈ lines, '\n' ∉ line) : entries text = lines.filterMap lineEntry := by
  rw [Utils.entries]
  obtain rfl | hne := eq_or_ne lines []
  · obtain rfl | rfl := htext <;> rfl
  obtain rfl | rfl := htext
  · rw [List.splitOn_intercalate '\n' hlines hne]
  · rw [splitOn_intercalate_concat hlines hne, List.filterMap_append]
    exact List.append_nil _

/-- **Property files override.** A text lists entries, one on a line, with white space around keys
and values, between lines that are skipped. Loading it leaves the settings overridden by the
entries: a key that is listed has the value of its last entry, and any other key has the value it
had before. -/
theorem load_overrides {es : List (Str × Str)} {lines : List Str} (hlists : Lists es lines)
    {text : Str} (htext : HasLines text lines) (p : Properties) :
    ∃ q, p.load (.openText text) = .ok q ∧ q.properties = overrideBy p.properties es ∧
      ∀ key defaultValue, q.getProperty key defaultValue =
        (lastValue key es).getD (p.getProperty key defaultValue) := by
  refine ⟨⟨overrideBy p.properties es⟩, ?_, rfl, fun key defaultValue => ?_⟩
  · rw [Properties.load_openText, htext.entries hlists.not_mem_newline, hlists.filterMap_lineEntry]
  · rw [Properties.getProperty, Properties.getProperty, lookup_overrideBy]
    cases lastValue key es <;> rfl

/-- A comment, two entries for one key with an empty line between them, and a line without `=`. -/
theorem load_overrides_twice :
    ∃ q, Properties.empty.load (.openText "#k=0\n k = 1\n\nk=2=\nx".toList) = .ok q ∧
      q.getProperty ['k'] [] = ['2', '='] := by
  let lines := ["#k=0".toList, " k = 1".toList, [], "k=2=".toList, "x".toList]
  have htext : HasLines "#k=0\n k = 1\n\nk=2=\nx".toList lines := .inl (by decide)
  have hlists : Lists [(['k'], ['1']), (['k'], ['2', '='])] lines :=
    .skip (by decide) (@Lists.entry _ _ (['k'], ['1']) [' '] [' '] [' '] []
      (by decide) (by decide) (by decide) (by decide) (by decide)
      (.skip (by decide) (@Lists.entry _ _ (['k'], ['2', '=']) [] [] [] []
        (by decide) (by decide) (by decide) (by decide) (by decide)
        (.skip (by decide) .nil))))
  obtain ⟨q, hload, -, hget⟩ := load_overrides hlists htext .empty
  exact ⟨q, hload, (hget ['k'] []).trans (by decide)⟩

end Utils

end YcsbC
