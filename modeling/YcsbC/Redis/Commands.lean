import YcsbC.Lib.Stoi
import YcsbC.Redis.FormatCommand
import YcsbC.Redis.ReplyDerivations

/-!
# The text of a command

hiredis writes a command as an array of strings. Two functions do so from a list of arguments, one
with `sprintf` into memory whose size is computed beforehand and one with `sdscatfmt`
(`redis/hiredis/hiredis.c`, lines 190 to 208 and 465 to 564; `redis/hiredis/sds.c`, lines 299 to 352
and 425 to 530). The texts are in the grammar of replies, so that the reader reads them back.

## Main definitions

* `countDigits`, `bulklen`, `totlen`: the sizes that are computed.
* `sdsull2str`, `sdsll2str`, `sdscatfmt`: numbers and formats of sds.
* `commandText`: the text of a command.
* `redisFormatCommandArgv`, `redisFormatSdsCommandArgv`: the two functions. The sizes that the first
  adds up, and the lengths of an sds, are of type `int`.

## Main results

* `redisFormatSdsCommandArgv_eq`: both return the same text and its length.
* `RedisReader.repliesOf_commands`: commands are read back.
-/

namespace YcsbC

/-! ### Numbers -/

/-- `countDigits`. -/
def countDigits (v : ℕ) : ℕ :=
  if v < 10 then 1
  else if v < 100 then 2
  else if v < 1000 then 3
  else if v < 10000 then 4
  else countDigits (v / 10000) + 4

/-- The loop of `sdsll2str` and `sdsull2str`, which writes the last digit first. -/
def reversedDigits (v : ℕ) : Str :=
  Char.ofNat ('0'.toNat + v % 10) :: if v / 10 = 0 then [] else reversedDigits (v / 10)

/-- `sdsull2str`. -/
def sdsull2str (v : ℕ) : Str := (reversedDigits v).reverse

/-- `sdsll2str`. -/
def sdsll2str (value : ℤ) : Str :=
  (reversedDigits value.natAbs ++ if value < 0 then ['-'] else []).reverse

theorem length_toDigits_of_le {v k : ℕ} (hk : 10 ^ k ≤ v) (hlt : v < 10 ^ (k + 1)) :
    (Nat.toDigits 10 v).length = k + 1 := by
  have hle := (Nat.length_toDigits_le_iff (by decide) (Nat.succ_pos k)).2 hlt
  obtain _ | k := k
  · exact le_antisymm hle Nat.length_toDigits_pos
  · have hgt : ¬ (Nat.toDigits 10 v).length ≤ k + 1 := fun h =>
      absurd ((Nat.length_toDigits_le_iff (by decide) (Nat.succ_pos k)).1 h) (not_lt.2 hk)
    omega

/-- Four digits more. -/
theorem length_toDigits_div {v : ℕ} (h : 10000 ≤ v) :
    (Nat.toDigits 10 v).length = (Nat.toDigits 10 (v / 10000)).length + 4 := by
  have hsplit : ∀ w : ℕ, 10 ≤ w →
      (Nat.toDigits 10 w).length = (Nat.toDigits 10 (w / 10)).length + 1 := fun w hw => by
    rw [Nat.toDigits_of_base_le (by decide) hw, List.length_append]
    rfl
  rw [hsplit v (by omega), hsplit (v / 10) (by omega), hsplit (v / 10 / 10) (by omega),
    hsplit (v / 10 / 10 / 10) (by omega)]
  simp only [Nat.div_div_eq_div_mul]

/-- **The digits are counted.** -/
theorem countDigits_eq (v : ℕ) : countDigits v = (Nat.toDigits 10 v).length := by
  induction v using countDigits.induct with
  | case1 v h1 =>
    rw [countDigits, if_pos h1, Nat.toDigits_of_lt_base h1]
    rfl
  | case2 v h1 h2 =>
    rw [countDigits, if_neg h1, if_pos h2, length_toDigits_of_le (k := 1) (not_lt.1 h1) h2]
  | case3 v h1 h2 h3 =>
    rw [countDigits, if_neg h1, if_neg h2, if_pos h3,
      length_toDigits_of_le (k := 2) (not_lt.1 h2) h3]
  | case4 v h1 h2 h3 h4 =>
    rw [countDigits, if_neg h1, if_neg h2, if_neg h3, if_pos h4,
      length_toDigits_of_le (k := 3) (not_lt.1 h3) h4]
  | case5 v h1 h2 h3 h4 ih =>
    rw [countDigits, if_neg h1, if_neg h2, if_neg h3, if_neg h4, ih,
      length_toDigits_div (not_lt.1 h4)]

theorem ofNat_digit {d : ℕ} (h : d < 10) : Char.ofNat ('0'.toNat + d) = d.digitChar := by
  revert d
  decide

/-- **The digits are printed.** -/
theorem sdsull2str_eq (v : ℕ) : sdsull2str v = Nat.toDigits 10 v := by
  rw [sdsull2str]
  induction v using Nat.strongRecOn with
  | _ v ih =>
    rw [reversedDigits, ofNat_digit (Nat.mod_lt v (by decide))]
    split_ifs with h
    · have hlt : v < 10 := by omega
      rw [Nat.toDigits_of_lt_base hlt, Nat.mod_eq_of_lt hlt]
      rfl
    · have hle : 10 ≤ v := by omega
      rw [List.reverse_cons, ih _ (by omega), ← Nat.toDigits_of_base_le (by decide) hle]

theorem sdsll2str_natCast (n : ℕ) : sdsll2str n = Nat.toDigits 10 n := by
  have hneg : ¬ (n : ℤ) < 0 := (Int.natCast_nonneg n).not_gt
  rw [sdsll2str, if_neg hneg, List.append_nil, Int.natAbs_natCast]
  exact sdsull2str_eq n

theorem le_ofDigitChars (ds : Str) (v : ℕ) : v ≤ Nat.ofDigitChars 10 ds v := by
  induction ds generalizing v with
  | nil => exact le_refl v
  | cons c ds ih =>
    rw [Nat.ofDigitChars_cons]
    exact le_trans (by omega) (ih _)

theorem readDigits_digits {ds : Str} (hds : ∀ c ∈ ds, c.isDigit) {v : ℕ}
    (hlt : Nat.ofDigitChars 10 ds v < 2 ^ 63) :
    readDigits 1 v (ds ++ crlf) = some (Nat.ofDigitChars 10 ds v : ℤ) := by
  induction ds generalizing v with
  | nil => exact congrArg some (one_mul (v : ℤ))
  | cons c ds ih =>
    have hc := hds c List.mem_cons_self
    have hne : c ≠ '\r' := by
      rintro rfl
      cases hc
    rw [Nat.ofDigitChars_cons] at hlt
    have hle := le_ofDigitChars ds (10 * v + (c.toNat - '0'.toNat))
    have hsmall : v * 10 + (c.toNat - '0'.toNat) < 2 ^ 63 := by omega
    rw [List.cons_append, readDigits, if_neg hne, if_pos hc]
    simp only [if_pos hsmall]
    rw [Nat.mul_comm v, ih (fun d hd => hds d (List.mem_cons_of_mem c hd)) hlt,
      Nat.ofDigitChars_cons]

/-- A number that is printed is read back, if it is a `long long`. -/
theorem number_toDigits {n : ℕ} (h : n < 2 ^ 63) :
    number (Nat.toDigits 10 n) = some (n : ℤ) := by
  have hds : ∀ c ∈ Nat.toDigits 10 n, c.isDigit := fun c hc =>
    Nat.isDigit_of_mem_toDigits (by decide) (by decide) hc
  have hread := @readDigits_digits (Nat.toDigits 10 n) hds 0
    (by rwa [Nat.ofDigitChars_ten_toDigits])
  rw [Nat.ofDigitChars_ten_toDigits] at hread
  rw [number]
  cases hdigits : Nat.toDigits 10 n with
  | nil => exact absurd hdigits Nat.toDigits_ne_nil
  | cons c ds =>
    have hc := not_special_of_isDigit (hds c (hdigits ▸ List.mem_cons_self))
    rw [List.cons_append, readLongLong, if_neg hc.2.1, if_neg hc.2.2, ← List.cons_append, ← hdigits,
      hread]

theorem isLine_toDigits (n : ℕ) : IsLine (Nat.toDigits 10 n) := by
  rw [IsLine]
  cases h : findCrlf (Nat.toDigits 10 n) with
  | none => rfl
  | some k =>
    have hdigit := Nat.isDigit_of_mem_toDigits (by decide) (by decide) (mem_of_findCrlf h)
    cases hdigit

/-! ### Formats of sds -/

/-- A variadic argument of `sdscatfmt`. -/
inductive SdsArg where
  | str (s : Str)
  | sds (s : Str)
  | int (n : ℤ)
  | longLong (n : ℤ)
  | unsigned (n : ℕ)
  | unsignedLongLong (n : ℕ)
  | size (n : ℕ)

/-- What a directive of `sdscatfmt` appends; `none` if its argument is not there or has another
type. -/
def sdsDirective : Char → List SdsArg → Option (Str × List SdsArg)
  | 's', .str arg :: ap => some (cStr arg, ap)
  | 'S', .sds arg :: ap => some (arg, ap)
  | 'i', .int n :: ap => some (sdsll2str n, ap)
  | 'I', .longLong n :: ap => some (sdsll2str n, ap)
  | 'u', .unsigned n :: ap => some (sdsull2str n, ap)
  | 'U', .unsignedLongLong n :: ap => some (sdsull2str n, ap)
  | 'T', .size n :: ap => some (sdsull2str n, ap)
  | c, ap => if "sSiIuUT".toList.contains c then none else some ([c], ap)

/-- `sdscatfmt`; a format that ends with a `%` is read beyond its end. -/
def sdscatfmt (s : Str) : Str → List SdsArg → Option Str
  | [], _ => some s
  | ['%'], _ => none
  | '%' :: c :: fmt, ap => (sdsDirective c ap).bind fun p => sdscatfmt (s ++ p.1) fmt p.2
  | c :: fmt, ap => sdscatfmt (s ++ [c]) fmt ap

/-! ### Commands -/

/-- `bulklen`. -/
def bulklen (len : ℕ) : ℕ := 1 + countDigits len + 2 + len + 2

/-- `totlen`, as it is computed before the text is written. -/
def totlen (args : List Str) : ℕ :=
  args.foldl (fun n arg => n + bulklen arg.length) (1 + countDigits args.length + 2)

/-- The arguments that are given by `argv` and `argvlen`; without the lengths an argument ends at
its NUL. -/
def commandArgs (argv : List Str) (argvlen : Option (List ℕ)) : List Str :=
  match argvlen with
  | none => argv.map cStr
  | some lens => List.zipWith (fun len arg => arg.take len) lens argv

/-- The text that is written for a command, by `redisvFormatCommand` as well. -/
def commandText (args : List Str) : Str :=
  args.foldl
    (fun cmd arg => cmd ++ ('$' :: (Nat.toDigits 10 arg.length ++ crlf)) ++ arg ++ crlf)
    ('*' :: (Nat.toDigits 10 args.length ++ crlf))

/-- `redisFormatCommandArgv`: the text and the length that is returned; `none` when `totlen + 1` is
no `int`, so that `malloc` gets another size. -/
def redisFormatCommandArgv (argv : List Str) (argvlen : Option (List ℕ)) : Option (Str × ℕ) :=
  let args := commandArgs argv argvlen
  if totlen args + 1 < 2 ^ 31 then some (commandText args, totlen args) else none

/-- `SDS_MAX_PREALLOC`. -/
def sdsMaxPrealloc : ℕ := 1024 * 1024

/-- `redisFormatSdsCommandArgv`: the text and the length that is returned; `none` when the room that
`sdsMakeRoomFor` makes is no `int`, or a format is read beyond its end. -/
def redisFormatSdsCommandArgv (argv : List Str) (argvlen : Option (List ℕ)) :
    Option (Str × ℕ) :=
  let args := commandArgs argv argvlen
  if totlen args + sdsMaxPrealloc < 2 ^ 31 then
    (sdscatfmt [] "*%i\r\n".toList [.int args.length]).bind fun cmd =>
      (args.foldlM (fun cmd arg =>
        (sdscatfmt cmd "$%T\r\n".toList [.size arg.length]).map (· ++ arg ++ crlf)) cmd).map
          fun cmd => (cmd, totlen args)
  else none

/-! ### The text -/

/-- The text of an argument. -/
def bulkText (arg : Str) : Str :=
  '$' :: (Nat.toDigits 10 arg.length ++ (crlf ++ (arg ++ crlf)))

theorem commandText_eq (args : List Str) :
    commandText args =
      '*' :: (Nat.toDigits 10 args.length ++ (crlf ++ (args.map bulkText).flatten)) := by
  have happend : ∀ (args : List Str) (cmd : Str),
      args.foldl
        (fun cmd arg => cmd ++ ('$' :: (Nat.toDigits 10 arg.length ++ crlf)) ++ arg ++ crlf) cmd =
        cmd ++ (args.map bulkText).flatten := by
    intro args
    induction args with
    | nil => exact fun cmd => (List.append_nil cmd).symm
    | cons arg args ih =>
      intro cmd
      rw [List.foldl_cons, ih]
      simp [bulkText]
  rw [commandText, happend]
  simp

theorem length_bulkText (arg : Str) : (bulkText arg).length = bulklen arg.length := by
  simp only [bulkText, bulklen, countDigits_eq, crlf, List.length_cons, List.length_append,
    List.length_nil]
  omega

theorem totlen_eq (args : List Str) :
    totlen args = 1 + countDigits args.length + 2 + ((args.map bulkText).flatten).length := by
  have hadd : ∀ (args : List Str) (n : ℕ),
      args.foldl (fun n arg => n + bulklen arg.length) n =
        n + ((args.map bulkText).flatten).length := by
    intro args
    induction args with
    | nil => exact fun n => rfl
    | cons arg args ih =>
      intro n
      rw [List.foldl_cons, ih, List.map_cons, List.flatten_cons, List.length_append,
        length_bulkText, Nat.add_assoc]
  exact hadd args _

/-- **The memory that is computed is the text's.** -/
theorem length_commandText (args : List Str) : (commandText args).length = totlen args := by
  rw [commandText_eq, totlen_eq, countDigits_eq]
  simp only [crlf, List.length_cons, List.length_append, List.length_nil]
  omega

/-- What `sdscatfmt` makes of the two formats. -/
theorem sdscatfmt_count (n : ℕ) :
    sdscatfmt [] "*%i\r\n".toList [.int n] = some ('*' :: (Nat.toDigits 10 n ++ crlf)) := by
  show some ([] ++ ['*'] ++ sdsll2str n ++ ['\r'] ++ ['\n']) = _
  rw [sdsll2str_natCast]
  simp [crlf]

theorem sdscatfmt_length (cmd : Str) (n : ℕ) :
    sdscatfmt cmd "$%T\r\n".toList [.size n] =
      some (cmd ++ ('$' :: (Nat.toDigits 10 n ++ crlf))) := by
  show some (cmd ++ ['$'] ++ sdsull2str n ++ ['\r'] ++ ['\n']) = _
  rw [sdsull2str_eq]
  simp [crlf]

/-- **The two functions agree.** As long as the sizes are of type `int`, both return the same text
and its length, so that neither assertion fails. -/
theorem redisFormatSdsCommandArgv_eq {argv : List Str} {argvlen : Option (List ℕ)}
    (h : totlen (commandArgs argv argvlen) + sdsMaxPrealloc < 2 ^ 31) :
    redisFormatSdsCommandArgv argv argvlen = redisFormatCommandArgv argv argvlen ∧
      redisFormatCommandArgv argv argvlen = some (commandText (commandArgs argv argvlen),
        (commandText (commandArgs argv argvlen)).length) := by
  have hint : totlen (commandArgs argv argvlen) + 1 < 2 ^ 31 := by
    rw [sdsMaxPrealloc] at h
    omega
  have hargv : redisFormatCommandArgv argv argvlen =
      some (commandText (commandArgs argv argvlen), totlen (commandArgs argv argvlen)) :=
  if_pos hint
  refine ⟨?_, by rw [hargv, length_commandText]⟩
  have hfold : ∀ (args : List Str) (cmd : Str),
      args.foldlM (fun cmd arg =>
        (sdscatfmt cmd "$%T\r\n".toList [.size arg.length]).map (· ++ arg ++ crlf)) cmd =
      some (args.foldl (fun cmd arg =>
        cmd ++ ('$' :: (Nat.toDigits 10 arg.length ++ crlf)) ++ arg ++ crlf) cmd) := by
    intro args
    induction args with
    | nil => exact fun cmd => rfl
    | cons arg args ih =>
      intro cmd
      rw [List.foldlM_cons, sdscatfmt_length, Option.map_some, Option.bind_eq_bind,
        Option.bind_some, ih, List.foldl_cons]
  rw [hargv, redisFormatSdsCommandArgv, if_pos h, sdscatfmt_count]
  simp only [Option.bind_some, hfold, Option.map_some]
  rfl

/-- `SET k` with a value that has a NUL in it, with lengths. -/
theorem redisFormatSdsCommandArgv_eq_set :
    redisFormatSdsCommandArgv ["SET".toList, ['k'], ['a', nul, 'b']] (some [3, 1, 3]) =
        redisFormatCommandArgv ["SET".toList, ['k'], ['a', nul, 'b']] (some [3, 1, 3]) ∧
      redisFormatCommandArgv ["SET".toList, ['k'], ['a', nul, 'b']] (some [3, 1, 3]) =
        some ("*3\r\n$3\r\nSET\r\n$1\r\nk\r\n$3\r\na\x00b\r\n".toList, 29) := by
  refine redisFormatSdsCommandArgv_eq ?_
  rw [← length_commandText]
  decide

/-! ### Commands are read back -/

theorem encodes_bulkText {arg : Str} (h : arg.length < 2 ^ 63) :
    Encodes 1 (.string arg) (bulkText arg) :=
  .string (isLine_toDigits _) (number_toDigits h) rfl

/-- The array of strings that a command is. -/
def RedisReply.command (args : List Str) : RedisReply := .array (args.map .string)

theorem encodes_commandText {args : List Str} (h : totlen args < 2 ^ 31) :
    Encodes 0 (.command args) (commandText args) := by
  have hflatten : ∀ {args : List Str}, args.length ≤ ((args.map bulkText).flatten).length ∧
      ∀ arg ∈ args, arg.length ≤ ((args.map bulkText).flatten).length := by
    intro args
    induction args with
    | nil => simp
    | cons arg args ih =>
      rw [List.map_cons, List.flatten_cons, List.length_append, length_bulkText, bulklen]
      refine ⟨by rw [List.length_cons]; omega, ?_⟩
      rintro b (- | ⟨_, hb⟩)
      · omega
      · exact le_trans (ih.2 b hb) (by omega)
  obtain ⟨hlength, hargs⟩ := @hflatten args
  rw [totlen_eq] at h
  rw [commandText_eq, RedisReply.command]
  have hitems : List.Forall₂ (Encodes 1) (args.map .string) (args.map bulkText) := by
    rw [List.forall₂_map_left_iff, List.forall₂_map_right_iff, List.forall₂_same]
    exact fun arg harg => encodes_bulkText (by have := hargs arg harg; omega)
  exact .array_of_number (isLine_toDigits _)
    (by rw [List.length_map]; exact number_toDigits (by omega)) (by decide)
    (by rw [List.length_map]; omega) hitems

/-- **Commands are read back.** The texts of commands, in any pieces, are read as these commands,
and nothing is left. -/
theorem RedisReader.repliesOf_commands {cmds : List (List Str)}
    (h : ∀ args ∈ cmds, totlen args < 2 ^ 31) {pieces : List Str}
    (hpieces : pieces.flatten = (cmds.map commandText).flatten) (hfits : create.Fits pieces) :
    (repliesOf pieces create).1 = cmds.map .command ∧ (repliesOf pieces create).2.err = none ∧
      (repliesOf pieces create).2.unread = [] := by
  obtain ⟨hreplies, hshows⟩ := repliesOf_create hfits
  have hcmds : List.Forall₂ (Encodes 0) (cmds.map .command) (cmds.map commandText) := by
    rw [List.forall₂_map_left_iff, List.forall₂_map_right_iff, List.forall₂_same]
    exact fun args hargs => encodes_commandText (h args hargs)
  have hrun := (takes_of_encodes hcmds).run_append []
  rw [List.append_nil, ← hpieces, StreamMachine.run_of_none StreamMachine.step_nil,
    List.append_nil] at hrun
  rw [hrun] at hreplies hshows
  have herr : (repliesOf pieces create).2.err = none := hshows.err_eq
  exact ⟨hreplies, herr, hshows.unread_eq herr⟩

/-- Two commands, the second of which has an empty argument, in three pieces. -/
theorem RedisReader.repliesOf_commands_two :
    (repliesOf ["*2\r\n$3\r".toList, "\nGET\r\n$1\r\nk\r\n*".toList, "1\r\n$0\r\n\r\n".toList]
      create).1 = [.command ["GET".toList, ['k']], .command [[]]] := by
  have htotlen : ∀ args ∈ [["GET".toList, ['k']], [[]]], totlen args < 2 ^ 31 := by
    simp only [← length_commandText]
    decide
  exact (repliesOf_commands htotlen (by decide) (fits_create (by decide))).1

end YcsbC
