import YcsbC.Lib.VmpString

/-!
# How hiredis formats a command

`redisvFormatCommand` reads a format string and a list of variadic arguments and splits the text
into the arguments of a command (`redis/hiredis/hiredis.c`, lines 210 to 417). A space ends an
argument, and `%` starts a directive: `%s`, `%b`, `%%`, or a `printf` conversion with flags, width,
precision and size modifier. A `%` at the end of the format is an ordinary character.

## Main definitions

* `VaArg`, `VaType`: the variadic arguments.
* `conversion`: the recognition of a `printf` conversion.
* `directive`, `scan`, `redisvFormatCommand`: the function. What it returns is the list of arguments
  that it puts into the command; the text that `vsnprintf` produces for a conversion is a parameter.
-/

namespace YcsbC

/-- A variadic argument. -/
inductive VaArg where
  | str (s : Str)
  | size (n : ℕ)
  | int (n : ℤ)
  | long (n : ℤ)
  | longLong (n : ℤ)
  | double (bits : UInt64)
  deriving DecidableEq, Repr

/-- The types that a conversion takes by `va_arg`. -/
inductive VaType where
  | int
  | long
  | longLong
  | double
  deriving DecidableEq, Repr

/-- What comes of a format: the arguments with the variadic arguments that are left, a format error,
or undefined behaviour: a variadic argument that is not there or has another type, or a scan beyond
the end of the format. -/
inductive Formatted where
  | ok (argv : List Str) (ap : List VaArg)
  | formatErr
  | undefined
  deriving DecidableEq, Repr

/-- The variables of the loop. -/
structure FormatState where
  curarg : Str
  touched : Bool
  argv : List Str
  ap : List VaArg

/-- `va_arg` of a type. -/
def vaArg : VaType → List VaArg → Option (VaArg × List VaArg)
  | .int, .int n :: ap => some (.int n, ap)
  | .long, .long n :: ap => some (.long n, ap)
  | .longLong, .longLong n :: ap => some (.longLong n, ap)
  | .double, .double x :: ap => some (.double x, ap)
  | _, _ => none

/-! ### Conversions -/

/-- The flags. -/
def isFlag (c : Char) : Bool := "#0-+ ".toList.contains c

/-- The integer conversions. -/
def isIntfmt (c : Char) : Bool := "diouxX".toList.contains c

/-- The double conversions. -/
def isDoublefmt (c : Char) : Bool := "eEfFgGaA".toList.contains c

/-- A conversion: its type, with the format behind it; none; or the end of the format where the
conversion is expected, which `strchr` takes for one. -/
inductive Conversion where
  | valid (type : VaType) (rest : Str)
  | invalid
  | pastEnd
  deriving DecidableEq, Repr

/-- The integer conversion after a size modifier. -/
def sized (type : VaType) : Str → Conversion
  | c :: rest => if isIntfmt c then .valid type rest else .invalid
  | [] => .invalid

/-- The precision. -/
def skipPrecision : Str → Str
  | '.' :: p => p.dropWhile Char.isDigit
  | p => p

/-- The conversion that `p`, the format after the `%`, starts with. -/
def conversion (p : Str) : Conversion :=
  match skipPrecision ((p.dropWhile isFlag).dropWhile Char.isDigit) with
  | [] => .pastEnd
  | 'h' :: 'h' :: rest => sized .int rest
  | 'h' :: rest => sized .int rest
  | 'l' :: 'l' :: rest => sized .longLong rest
  | 'l' :: rest => sized .long rest
  | c :: rest =>
    if isIntfmt c then .valid .int rest
    else if isDoublefmt c then .valid .double rest
    else .invalid

/-! ### The loop -/

namespace FormatState

/-- Append to the current argument. -/
def append (s : FormatState) (text : Str) : FormatState :=
  { s with curarg := s.curarg ++ text, touched := true }

/-- A character outside a directive. -/
def literal (s : FormatState) (c : Char) : FormatState :=
  if c = ' ' then
    if s.touched then { s with curarg := [], touched := false, argv := s.argv ++ [s.curarg] } else s
  else s.append [c]

/-- The arguments at the end of the format. -/
def finish (s : FormatState) : List Str :=
  if s.touched then s.argv ++ [s.curarg] else s.argv

end FormatState

/-- What a directive does: the loop goes on behind some characters, or ends. -/
inductive Directive where
  | next (skip : ℕ) (s : FormatState)
  | stop (r : Formatted)

/-- The directive that `p`, the format after the `%`, starts with. -/
def directive (vprintf : Str → VaArg → Str) (p : Str) (s : FormatState) : Directive :=
  match p with
  | 's' :: _ =>
    match s.ap with
    | .str arg :: ap => .next 1 ({ s with ap := ap }.append (cStr arg))
    | _ => .stop .undefined
  | 'b' :: _ =>
    match s.ap with
    | .str arg :: .size n :: ap =>
      if n ≤ arg.length then .next 1 ({ s with ap := ap }.append (arg.take n)) else .stop .undefined
    | _ => .stop .undefined
  | '%' :: _ => .next 1 (s.append ['%'])
  | _ =>
    match conversion p with
    | .valid type rest =>
      match vaArg type s.ap with
      | some (arg, ap) =>
        -- `_format` has room for 13 characters; a longer conversion is not formatted
        let l := 1 + (p.length - rest.length)
        if l < 14 then
          .next (l - 1) ({ s with ap := ap }.append (vprintf ('%' :: p.take (l - 1)) arg))
        else .next 1 ({ s with ap := ap }.append [])
      | none => .stop .undefined
    | .invalid => .stop .formatErr
    | .pastEnd => .stop .undefined

/-- The loop over the format, which first skips the characters of the last directive. -/
def scan (vprintf : Str → VaArg → Str) : ℕ → Str → FormatState → Formatted
  | _, [], s => .ok s.finish s.ap
  | skip + 1, _ :: cs, s => scan vprintf skip cs s
  | 0, c :: cs, s =>
    if c ≠ '%' ∨ cs = [] then scan vprintf 0 cs (s.literal c)
    else
      match directive vprintf cs s with
      | .next skip s => scan vprintf skip cs s
      | .stop r => r

/-- `redisvFormatCommand`; the format ends at its first NUL. -/
def redisvFormatCommand (vprintf : Str → VaArg → Str) (format : Str) (ap : List VaArg) :
    Formatted :=
  scan vprintf 0 (cStr format) ⟨[], false, [], ap⟩

end YcsbC
