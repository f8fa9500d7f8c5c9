import Mathlib.Data.Bool.AllAny
import YcsbC.Lib.Stoi
import YcsbC.Redis.Commands

/-!
# The commands of an asynchronous context

An asynchronous context finds out from its text what a command is: `nextArgument` walks over the
arguments (`redis/hiredis/async.c`). The text is followed by a NUL.

## Main definitions

* `nextArgument`: the next argument; `none` if the text ends before it does, or `none` within if
  there is no argument.
* `AsyncKind`, `asyncKind`: what a text is.
* `commandKind`: what a command is, by its arguments.

## Main results

* `asyncKind_commandText`: the text of a command is what the command is.
-/

namespace YcsbC

/-! ### Functions of the C library -/

/-- `strtol` in base 10. -/
def strtol (s : Str) : ℤ :=
  let (negative, s) := readSign (s.dropWhile isSpace)
  let value : ℤ := Nat.ofDigitChars 10 (s.takeWhile Char.isDigit) 0
  max (-2 ^ 63) (min (2 ^ 63 - 1) (if negative then -value else value))

/-- `strchr`: the string from the first occurrence of a character on. -/
def strchr (c : Char) : Str → Option Str
  | [] => none
  | d :: s => if d = c then some (d :: s) else if d = nul then none else strchr c s

/-- `strncasecmp` finds no difference. -/
def strncasecmp : ℕ → Str → Str → Bool
  | 0, _, _ => true
  | n + 1, s, t =>
    (s.headD nul).toLower = (t.headD nul).toLower &&
      (s.headD nul = nul || strncasecmp n s.tail t.tail)

/-! ### The arguments of a text -/

/-- What `nextArgument` returns: the text from the argument on, the length of the argument, and the
text behind it. -/
structure NextArgument where
  str : Str
  len : ℕ
  next : Str

/-- `nextArgument`. -/
def nextArgument (start : Str) : Option (Option NextArgument) :=
  match if start.head? = some '$' then some start else strchr '$' start with
  | none => some none
  | some p =>
    let len := (strtol p.tail).bmod (2 ^ 32)
    match strchr '\r' p with
    | none => none
    | some p =>
      if 0 ≤ len ∧ 2 + len.toNat + 2 ≤ p.length then
        some (some ⟨p.drop 2, len.toNat, p.drop (2 + len.toNat + 2)⟩)
      else none

/-- The loop over the arguments, at most `n` times. -/
def nextArguments : ℕ → Str → Option (List Str)
  | 0, _ => none
  | n + 1, p =>
    match nextArgument p with
    | none => none
    | some none => some []
    | some (some a) => (nextArguments n a.next).map (a.str.take a.len :: ·)

/-- What `__redisAsyncCommand` does with a command. -/
inductive AsyncKind
  | subscribe (pvariant : Bool) (names : List Str)
  | unsubscribe
  | monitor
  | regular
  deriving DecidableEq, Repr

/-- The part of `__redisAsyncCommand` that finds out which command will be appended; each argument
has a byte at least. -/
def asyncKind (cmd : Str) : Option AsyncKind :=
  match nextArgument cmd with
  | none => none
  | some none => none
  | some (some a) =>
    let hasnext := a.next.head? = some '$'
    let pvariant := (a.str.headD nul).toLower = 'p'
    let cstr := if pvariant then a.str.tail else a.str
    if hasnext && strncasecmp 11 cstr "subscribe\r\n".toList then
      (nextArguments (a.next.length + 1) a.next).map (.subscribe pvariant)
    else if strncasecmp 13 cstr "unsubscribe\r\n".toList then some .unsubscribe
    else if strncasecmp 9 cstr "monitor\r\n".toList then some .monitor
    else some .regular

/-! ### The arguments of a command -/

/-- An argument is a word, in any case; what is behind a line break is not read. -/
def Spells (arg word : Str) : Prop := word ++ crlf <+: (arg ++ crlf).map Char.toLower

instance (arg word : Str) : Decidable (Spells arg word) :=
  inferInstanceAs (Decidable (_ <+: _))

/-- What a command is, by its first argument and the others. -/
def commandKind (arg : Str) (args : List Str) : AsyncKind :=
  let pvariant : Bool := arg.head?.map Char.toLower = some 'p'
  let name := if pvariant then arg.tail else arg
  if args ≠ [] ∧ Spells name "subscribe".toList then .subscribe pvariant args
  else if Spells name "unsubscribe".toList then .unsubscribe
  else if Spells name "monitor".toList then .monitor
  else .regular

/-! ### The walk over a command -/

theorem strtol_toDigits {n : ℕ} (hn : n < 2 ^ 63) (s : Str) :
    strtol (Nat.toDigits 10 n ++ '\r' :: s) = n := by
  have hdigits : ∀ c ∈ Nat.toDigits 10 n, c.isDigit := fun c =>
    Nat.isDigit_of_mem_toDigits (by omega) (by omega)
  obtain ⟨c, cs, hcs⟩ := List.exists_cons_of_ne_nil (Nat.toDigits_ne_nil (b := 10) (n := n))
  obtain ⟨hspace, hminus, hplus⟩ := not_special_of_isDigit (hdigits c (by
    rw [hcs]
    exact List.mem_cons_self))
  have hdrop : (Nat.toDigits 10 n ++ '\r' :: s).dropWhile isSpace =
      Nat.toDigits 10 n ++ '\r' :: s := by
    rw [hcs, List.cons_append, List.dropWhile_cons,
      if_neg (by rw [hspace]; exact Bool.false_ne_true)]
  have hsign : readSign (Nat.toDigits 10 n ++ '\r' :: s) =
      (false, Nat.toDigits 10 n ++ '\r' :: s) := by
    rw [hcs, List.cons_append, readSign.eq_def]
    split
    · rename_i heq
      exact absurd (List.cons.inj heq).1 hminus
    · rename_i heq
      exact absurd (List.cons.inj heq).1 hplus
    · rfl
  have htake : (Nat.toDigits 10 n ++ '\r' :: s).takeWhile Char.isDigit = Nat.toDigits 10 n := by
    rw [List.takeWhile_append_of_pos hdigits, List.takeWhile_cons_of_neg (by decide),
      List.append_nil]
  simp only [strtol, hdrop, hsign, htake, Nat.ofDigitChars_ten_toDigits]
  rw [if_neg Bool.false_ne_true, min_eq_right (by omega), max_eq_right (by omega)]

theorem strchr_append {c : Char} {front : Str} (h : ∀ d ∈ front, d ≠ c ∧ d ≠ nul) (s : Str) :
    strchr c (front ++ c :: s) = some (c :: s) := by
  induction front with
  | nil => exact if_pos rfl
  | cons d front ih =>
    obtain ⟨hc, hnul⟩ := h d List.mem_cons_self
    rw [List.cons_append, strchr, if_neg hc, if_neg hnul]
    exact ih fun d hd => h d (List.mem_cons_of_mem _ hd)

theorem ne_of_mem_toDigits {n : ℕ} {c d : Char} (hd : d ∈ Nat.toDigits 10 n)
    (hc : c.isDigit = false) : d ≠ c := by
  rintro rfl
  have hdigit := Nat.isDigit_of_mem_toDigits (by omega : 0 < 10) (by omega) hd
  rw [hc] at hdigit
  cases hdigit

theorem nextArgument_bulkText {arg : Str} (harg : arg.length < 2 ^ 31) (rest : Str) :
    nextArgument (bulkText arg ++ rest) =
      some (some ⟨arg ++ (crlf ++ rest), arg.length, rest⟩) := by
  have htext : bulkText arg ++ rest =
      '$' :: (Nat.toDigits 10 arg.length ++ '\r' :: '\n' :: (arg ++ (crlf ++ rest))) := by
    simp [bulkText, crlf]
  have hdigits : ∀ d ∈ '$' :: Nat.toDigits 10 arg.length, d ≠ '\r' ∧ d ≠ nul := by
    intro d hd
    rcases List.mem_cons.1 hd with rfl | hd
    · exact ⟨by decide, by decide⟩
    · exact ⟨ne_of_mem_toDigits hd (by decide), ne_of_mem_toDigits hd (by decide)⟩
  have hchr := strchr_append hdigits ('\n' :: (arg ++ (crlf ++ rest)))
  have hstrtol := strtol_toDigits (lt_trans harg (by decide : 2 ^ 31 < 2 ^ 63))
    ('\n' :: (arg ++ (crlf ++ rest)))
  have hlen : ((arg.length : ℕ) : ℤ).bmod (2 ^ 32) = arg.length :=
    Int.bmod_eq_of_le (by omega) (by omega)
  rw [List.cons_append] at hchr
  rw [nextArgument, htext]
  simp only [List.head?_cons, if_true, List.tail_cons, hstrtol, hchr, hlen, Int.toNat_natCast]
  rw [if_pos ⟨Int.natCast_nonneg _, by simp [crlf]; omega⟩]
  have hdrop : ('\r' :: '\n' :: (arg ++ (crlf ++ rest))).drop (2 + arg.length + 2) = rest := by
    rw [show 2 + arg.length + 2 = arg.length + 2 + 2 by omega, List.drop_succ_cons,
      List.drop_succ_cons, ← List.append_assoc, List.drop_left' (by simp [crlf])]
  rw [hdrop]
  rfl

theorem nextArguments_bulkTexts {n : ℕ} {args : List Str} (h : ∀ arg ∈ args, arg.length < 2 ^ 31)
    (hn : args.length < n) : nextArguments n (args.map bulkText).flatten = some args := by
  induction args generalizing n with
  | nil =>
    obtain _ | n := n
    · exact absurd hn (Nat.not_lt_zero _)
    · rfl
  | cons arg args ih =>
    obtain _ | n := n
    · exact absurd hn (Nat.not_lt_zero _)
    · rw [List.map_cons, List.flatten_cons, nextArguments,
        nextArgument_bulkText (h arg List.mem_cons_self)]
      simp only
      rw [ih (fun a ha => h a (List.mem_cons_of_mem _ ha)) (Nat.lt_of_succ_lt_succ hn),
        List.take_left' rfl]
      rfl

theorem length_le_bulkTexts (args : List Str) :
    args.length ≤ ((args.map bulkText).flatten).length := by
  induction args with
  | nil => exact le_refl 0
  | cons arg args ih =>
    rw [List.map_cons, List.flatten_cons, List.length_append, bulkText, List.length_cons,
      List.length_cons]
    omega

/-! ### Words -/

/-- `strncasecmp` with the whole of a lower-case word. -/
theorem strncasecmp_iff {t : Str} (ht : ∀ c ∈ t, c.toLower = c ∧ c ≠ nul) (s : Str) :
    strncasecmp t.length s t = true ↔ t <+: s.map Char.toLower := by
  induction t generalizing s with
  | nil => exact iff_of_true rfl (List.nil_prefix)
  | cons c t ih =>
    obtain ⟨hlower, hnul⟩ := ht c List.mem_cons_self
    rw [List.length_cons, strncasecmp]
    cases s with
    | nil =>
      have hne : (nul.toLower = c) = False := eq_false fun heq => hnul (heq ▸ rfl)
      simp [hlower, hne]
    | cons d s =>
      have ih := ih (fun c hc => ht c (List.mem_cons_of_mem _ hc)) s
      by_cases heq : d.toLower = c
      · have hd : d ≠ nul := by
          rintro rfl
          exact hnul (heq ▸ rfl)
        simp [hlower, heq, hd, ih]
      · simp [hlower, heq, Ne.symm heq]

/-- What follows an argument and its line break is not compared. -/
theorem prefix_append_crlf_iff {word name rest : Str} (h : '\r' ∉ word) :
    word ++ crlf <+: name ++ (crlf ++ rest) ↔ word ++ crlf <+: name ++ crlf := by
  rw [← List.append_assoc]
  refine ⟨fun hword => ?_, fun hword => hword.trans (List.prefix_append ..)⟩
  by_cases hle : word.length ≤ name.length
  · exact List.prefix_of_prefix_length_le hword (List.prefix_append ..) (by simpa using hle)
  · have hname : name ++ ['\r'] <+: (name ++ crlf) ++ rest := ⟨'\n' :: rest, by simp [crlf]⟩
    have hinside : name ++ ['\r'] <+: word :=
      List.prefix_of_prefix_length_le hname ((List.prefix_append ..).trans hword) (by
        rw [List.length_append, List.length_singleton]
        omega)
    exact absurd (hinside.subset (by simp)) h

theorem strncasecmp_spells {word : Str} (h : ∀ c ∈ word, c.toLower = c ∧ c ≠ nul ∧ c ≠ '\r')
    (name rest : Str) :
    strncasecmp (word ++ crlf).length (name ++ (crlf ++ rest)) (word ++ crlf) = true ↔
      Spells name word := by
  have hlower : crlf.map Char.toLower = crlf := by decide
  rw [strncasecmp_iff, Spells, List.map_append, List.map_append, List.map_append, hlower,
    prefix_append_crlf_iff fun hmem => (h _ hmem).2.2 rfl]
  have hcrlf : ∀ c ∈ crlf, c.toLower = c ∧ c ≠ nul := List.all_iff_forall_prop.1 (by decide)
  exact fun c hc => (List.mem_append.1 hc).elim (fun hc => ⟨(h c hc).1, (h c hc).2.1⟩) (hcrlf c)

theorem nextArgument_append {front : Str} (h : ∀ d ∈ front, d ≠ '$' ∧ d ≠ nul) (s : Str) :
    nextArgument (front ++ '$' :: s) = nextArgument ('$' :: s) := by
  cases front with
  | nil => rfl
  | cons c front =>
    have hhead : ¬ (c :: front ++ '$' :: s).head? = some '$' := fun heq =>
      (h c List.mem_cons_self).1 (Option.some.inj heq)
    rw [nextArgument, if_neg hhead, strchr_append h, nextArgument]
    rfl

/-- The first argument is behind the number of the arguments. -/
theorem nextArgument_commandText {arg : Str} (harg : arg.length < 2 ^ 31) (args : List Str) :
    nextArgument (commandText (arg :: args)) =
      some (some ⟨arg ++ (crlf ++ (args.map bulkText).flatten), arg.length,
        (args.map bulkText).flatten⟩) := by
  have htext : commandText (arg :: args) =
      ('*' :: (Nat.toDigits 10 (arg :: args).length ++ crlf)) ++
        (bulkText arg ++ (args.map bulkText).flatten) := by
    rw [commandText_eq, List.map_cons, List.flatten_cons, List.cons_append, List.append_assoc]
  have hcrlf : ∀ d ∈ crlf, d ≠ '$' ∧ d ≠ nul := List.all_iff_forall_prop.1 (by decide)
  have hfront : ∀ d ∈ '*' :: (Nat.toDigits 10 (arg :: args).length ++ crlf),
      d ≠ '$' ∧ d ≠ nul := by
    intro d hd
    rcases List.mem_cons.1 hd with rfl | hd
    · exact ⟨by decide, by decide⟩
    · refine (List.mem_append.1 hd).elim (fun hd => ?_) (hcrlf d)
      exact ⟨ne_of_mem_toDigits hd (by decide), ne_of_mem_toDigits hd (by decide)⟩
  rw [htext, ← nextArgument_bulkText harg]
  exact nextArgument_append hfront _

/-- **What a command is.** The walk over the text of a command finds out what it is. -/
theorem asyncKind_commandText {arg : Str} {args : List Str} (harg : arg.length < 2 ^ 31)
    (hargs : ∀ arg ∈ args, arg.length < 2 ^ 31) :
    asyncKind (commandText (arg :: args)) = some (commandKind arg args) := by
  have hnext : ((args.map bulkText).flatten.head? = some '$') ↔ args ≠ [] := by
    cases args with
    | nil => simp
    | cons a args => simp [bulkText]
  have hp : ((arg ++ (crlf ++ (args.map bulkText).flatten)).headD nul).toLower = 'p' ↔
      arg.head?.map Char.toLower = some 'p' := by
    cases arg with
    | nil => exact iff_of_false (show ¬ '\r'.toLower = 'p' by decide) (by simp)
    | cons c arg => simp
  have hcstr : (if arg.head?.map Char.toLower = some 'p' then
        (arg ++ (crlf ++ (args.map bulkText).flatten)).tail
      else arg ++ (crlf ++ (args.map bulkText).flatten)) =
      (if arg.head?.map Char.toLower = some 'p' then arg.tail else arg) ++
        (crlf ++ (args.map bulkText).flatten) := by
    cases arg with
    | nil => rfl
    | cons c arg => split_ifs <;> rfl
  have hnames := nextArguments_bulkTexts hargs (Nat.lt_succ_of_le (length_le_bulkTexts args))
  rw [asyncKind, nextArgument_commandText harg, commandKind]
  simp only [hnext, hp, decide_eq_true_eq, Bool.and_eq_true, hcstr, hnames, Option.map_some]
  generalize (if arg.head?.map Char.toLower = some 'p' then arg.tail else arg) = name
  generalize (args.map bulkText).flatten = rest
  have hsubscribe : strncasecmp 11 (name ++ (crlf ++ rest)) "subscribe\r\n".toList = true ↔
      Spells name "subscribe".toList :=
    @strncasecmp_spells "subscribe".toList (List.all_iff_forall_prop.1 (by decide)) name rest
  have hunsubscribe : strncasecmp 13 (name ++ (crlf ++ rest)) "unsubscribe\r\n".toList = true ↔
      Spells name "unsubscribe".toList :=
    @strncasecmp_spells "unsubscribe".toList (List.all_iff_forall_prop.1 (by decide)) name rest
  have hmonitor : strncasecmp 9 (name ++ (crlf ++ rest)) "monitor\r\n".toList = true ↔
      Spells name "monitor".toList :=
    @strncasecmp_spells "monitor".toList (List.all_iff_forall_prop.1 (by decide)) name rest
  simp only [hsubscribe, hunsubscribe, hmonitor]
  split_ifs <;> rfl

/-- Two channels are subscribed to, in mixed case; one argument has no bytes. -/
theorem asyncKind_commandText_subscribe :
    asyncKind (commandText ["pSubScribe".toList, ['a', '*'], []]) =
      some (.subscribe true [['a', '*'], []]) :=
  asyncKind_commandText (by decide) (by decide)

end YcsbC
