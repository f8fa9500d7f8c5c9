import Mathlib.Algebra.Ring.Nat
import Mathlib.Tactic.Common
import YcsbC.Redis.FormatCommand

/-!
# The arguments of a Redis command

`RedisDB` joins the arguments of a command with spaces, and `RedisClient::Command` passes the text
to `redisAppendCommand` as its format string, with no variadic argument. So the text is scanned for
directives, and empty arguments are lost: the command carries its arguments if and only if none is
empty and no `%` comes before the last character.

## Main definitions

* `RedisDB.updateCommand`, `deleteCommand`: the texts.
* `words`: what is between the spaces of a text.

## Main results

* `scan_of_no_percent`, `length_of_percent`: a text without directives, and one with.
* `RedisDB.arguments_iff`: when the commands carry their arguments.
-/

namespace YcsbC

/-! ### Words -/

/-- What is between the spaces of a text. -/
def words (cs : Str) : List Str := (cs.splitOn ' ').filter fun w => w ≠ []

theorem words_of_no_space {w : Str} (hw : ' ' ∉ w) : words w = if w = [] then [] else [w] := by
  rw [words, List.splitOn_eq_singleton hw]
  split_ifs with hnil <;> simp [hnil]

theorem words_append_space (cs cs' : Str) : words (cs ++ ' ' :: cs') = words cs ++ words cs' := by
  rw [words, List.splitOn_append_cons_self, List.filter_append, words, words]

/-- The words of joined words are those that are not empty. -/
theorem words_intercalate {ws : List Str} (hws : ∀ w ∈ ws, ' ' ∉ w) (hne : ws ≠ []) :
    words ([' '].intercalate ws) = ws.filter fun w => w ≠ [] := by
  rw [words, List.splitOn_intercalate ' ' hws hne]

/-- The number of characters of a text that are not spaces. -/
def inked (cs : Str) : ℕ := cs.countP fun c => c ≠ ' '

theorem inked_of_no_space {w : Str} (hw : ' ' ∉ w) : inked w = w.length := by
  refine List.countP_eq_length.2 fun c hc => ?_
  rw [decide_eq_true_eq]
  rintro rfl
  exact hw hc

/-- Joining words adds spaces only. -/
theorem inked_intercalate {ws : List Str} (hws : ∀ w ∈ ws, ' ' ∉ w) :
    inked ([' '].intercalate ws) = (ws.map List.length).sum := by
  induction ws with
  | nil => rfl
  | cons w ws ih =>
    obtain ⟨hw, hws⟩ := List.forall_mem_cons.1 hws
    obtain _ | ⟨v, vs⟩ := ws
    · simp [inked_of_no_space hw]
    · have hjoin : [' '].intercalate (w :: v :: vs) = w ++ ' ' :: [' '].intercalate (v :: vs) := rfl
      have hinked : inked (w ++ ' ' :: [' '].intercalate (v :: vs)) =
          inked w + inked ([' '].intercalate (v :: vs)) := by
        simp [inked]
      rw [hjoin, hinked, ih hws, inked_of_no_space hw]
      exact List.sum_cons.symm

theorem intercalate_concat {ws : List Str} (hne : ws ≠ []) (w : Str) :
    [' '].intercalate (ws ++ [w]) = [' '].intercalate ws ++ ' ' :: w := by
  induction ws with
  | nil => exact absurd rfl hne
  | cons v ws ih =>
    obtain _ | ⟨u, us⟩ := ws
    · simp [List.intercalate]
    · have hjoin : ∀ t : Str, ∀ ts, [' '].intercalate (v :: t :: ts) =
          v ++ ' ' :: [' '].intercalate (t :: ts) := fun _ _ => rfl
      have htail : [' '].intercalate (u :: (us ++ [w])) =
          [' '].intercalate (u :: us) ++ ' ' :: w := ih (List.cons_ne_nil u us)
      rw [List.cons_append, List.cons_append, hjoin, hjoin, htail, List.append_assoc,
        List.cons_append]

theorem not_mem_intercalate {c : Char} (hc : c ≠ ' ') {ws : List Str} (hws : ∀ w ∈ ws, c ∉ w) :
    c ∉ [' '].intercalate ws := by
  induction ws with
  | nil => exact List.not_mem_nil
  | cons w ws ih =>
    obtain ⟨hw, hws⟩ := List.forall_mem_cons.1 hws
    obtain _ | ⟨v, vs⟩ := ws
    · simpa using hw
    · have hjoin : [' '].intercalate (w :: v :: vs) = w ++ ' ' :: [' '].intercalate (v :: vs) := rfl
      rw [hjoin, List.mem_append, List.mem_cons, not_or, not_or]
      exact ⟨hw, hc, ih hws⟩

/-! ### A text without directives -/

theorem mem_dropLast_cons {c d : Char} {cs : Str} (h : c ∈ cs.dropLast) :
    c ∈ (d :: cs).dropLast := by
  have hne : cs ≠ [] := by
    rintro rfl
    cases h
  rw [List.dropLast_cons_of_ne_nil hne]
  exact List.mem_cons_of_mem d h

section Scan

variable {vprintf : Str → VaArg → Str} {cs : Str} {s : FormatState}

/-- Without a `%` before its last character a text is split into its words. -/
theorem scan_of_no_percent (hcs : '%' ∉ cs.dropLast) (hs : s.touched ↔ s.curarg ≠ [])
    (hcur : ' ' ∉ s.curarg) :
    scan vprintf 0 cs s = .ok (s.argv ++ words (s.curarg ++ cs)) s.ap := by
  induction cs generalizing s with
  | nil =>
    rw [List.append_nil, words_of_no_space hcur, scan, FormatState.finish]
    by_cases htouched : s.touched
    · rw [if_pos htouched, if_neg (hs.1 htouched)]
    · rw [if_neg htouched, if_pos (not_not.1 (mt hs.2 htouched)), List.append_nil]
  | cons c cs ih =>
    have hliteral : c ≠ '%' ∨ cs = [] := by
      by_contra h
      push Not at h
      rw [List.dropLast_cons_of_ne_nil h.2] at hcs
      exact hcs (h.1 ▸ List.mem_cons_self)
    have hrest : '%' ∉ cs.dropLast := fun h => hcs (mem_dropLast_cons h)
    rw [scan, if_pos hliteral, FormatState.literal]
    by_cases hspace : c = ' '
    · rw [if_pos hspace, hspace, words_append_space, words_of_no_space hcur]
      by_cases htouched : s.touched
      · rw [if_pos htouched, if_neg (hs.1 htouched), ih hrest (by simp) (by simp)]
        simp
      · have hnil : s.curarg = [] := not_not.1 (mt hs.2 htouched)
        rw [if_neg htouched, if_pos hnil, ih hrest hs hcur, hnil]
        rfl
    · rw [if_neg hspace, ih hrest]
      · simp [FormatState.append]
      · simp [FormatState.append]
      · simpa [FormatState.append] using ⟨hcur, Ne.symm hspace⟩

/-! ### A text with directives -/

/-- The number of characters that have been put into arguments. -/
def FormatState.length (s : FormatState) : ℕ := (s.argv.map List.length).sum + s.curarg.length

theorem FormatState.length_finish (s : FormatState) :
    (s.finish.map List.length).sum ≤ s.length := by
  rw [finish, length]
  split_ifs <;> simp

theorem FormatState.length_append (s : FormatState) (text : Str) :
    (s.append text).length = s.length + text.length := by
  simp [append, length, Nat.add_assoc]

theorem FormatState.length_literal (s : FormatState) (c : Char) :
    (s.literal c).length = s.length + inked [c] := by
  rw [literal]
  by_cases hspace : c = ' '
  · rw [if_pos hspace, hspace]
    split_ifs <;> simp [length, inked]
  · rw [if_neg hspace, length_append]
    simp [inked, hspace]

/-- Without variadic arguments `%%` is the only directive after which the loop goes on. -/
theorem directive_of_no_args (vprintf : Str → VaArg → Str) (p : Str) (hap : s.ap = []) :
    (∃ cs, p = '%' :: cs ∧ directive vprintf p s = .next 1 (s.append ['%'])) ∨
      ∃ r, directive vprintf p s = .stop r ∧ ∀ argv ap, r ≠ .ok argv ap := by
  have hnone : ∀ type, vaArg type s.ap = none := fun type => by
    rw [hap]
    cases type <;> rfl
  unfold directive
  split
  · rw [hap]
    exact .inr ⟨_, rfl, nofun⟩
  · rw [hap]
    exact .inr ⟨_, rfl, nofun⟩
  · exact .inl ⟨_, rfl, rfl⟩
  · split
    · rw [hnone]
      exact .inr ⟨_, rfl, nofun⟩
    · exact .inr ⟨_, rfl, nofun⟩
    · exact .inr ⟨_, rfl, nofun⟩

theorem inked_cons (c : Char) (cs : Str) : inked (c :: cs) = inked [c] + inked cs := by
  show inked ([c] ++ cs) = _
  rw [inked, List.countP_append]
  rfl

/-- Without variadic arguments a text with directives puts fewer characters into the arguments than
it has. -/
theorem length_of_percent {skip : ℕ} {argv : List Str} {ap : List VaArg} (hap : s.ap = [])
    (h : scan vprintf skip cs s = .ok argv ap) :
    (argv.map List.length).sum ≤ s.length + inked (cs.drop skip) ∧
      (skip = 0 → '%' ∈ cs.dropLast → (argv.map List.length).sum < s.length + inked cs) := by
  induction cs generalizing skip s with
  | nil =>
    rw [scan] at h
    cases h
    exact ⟨Nat.le_add_right_of_le s.length_finish, fun _ hmem => by cases hmem⟩
  | cons c cs ih =>
    obtain _ | skip := skip
    · rw [scan] at h
      split_ifs at h with hliteral
      · have hap' : (s.literal c).ap = [] := by
          rw [FormatState.literal]
          split_ifs <;> exact hap
        obtain ⟨hle, hlt⟩ := ih hap' h
        rw [FormatState.length_literal, List.drop_zero] at hle
        rw [List.drop_zero, inked_cons]
        refine ⟨by omega, fun _ hmem => ?_⟩
        have hne : cs ≠ [] := by
          rintro rfl
          cases hmem
        rw [List.dropLast_cons_of_ne_nil hne] at hmem
        have hrest : '%' ∈ cs.dropLast :=
          (List.mem_cons.1 hmem).resolve_left fun hc => hliteral.elim (· hc.symm) hne
        have hstrict := hlt rfl hrest
        rw [FormatState.length_literal] at hstrict
        omega
      · push Not at hliteral
        rcases directive_of_no_args vprintf cs hap with
          ⟨cs', rfl, hnext⟩ | ⟨r, hstop, hr⟩
        · -- `%%` puts one of its two characters into the argument
          rw [hnext] at h
          obtain ⟨hle, -⟩ := ih (s := s.append ['%']) hap h
          have hone : inked ['%'] = 1 := rfl
          rw [FormatState.length_append, List.drop_one, List.tail_cons] at hle
          rw [List.drop_zero, inked_cons, inked_cons '%' cs', hliteral.1, hone]
          have hlength : (['%'] : Str).length = 1 := rfl
          omega
        · rw [hstop] at h
          exact absurd h (hr argv ap)
    · rw [scan] at h
      obtain ⟨hle, -⟩ := ih hap h
      exact ⟨hle, nofun⟩

/-- **When joined words are formatted into themselves.** Without variadic arguments the format
consists of its words if and only if no word is empty and no `%` comes before the last character. -/
theorem formatCommand_intercalate_iff {ws : List Str} (hws : ∀ w ∈ ws, ' ' ∉ w ∧ NulFree w)
    (hne : ws ≠ []) :
    redisvFormatCommand vprintf ([' '].intercalate ws) [] = .ok ws [] ↔
      (∀ w ∈ ws, w ≠ []) ∧ '%' ∉ ([' '].intercalate ws).dropLast := by
  have hspace : ∀ w ∈ ws, ' ' ∉ w := fun w hw => (hws w hw).1
  have hnul : NulFree ([' '].intercalate ws) :=
    not_mem_intercalate (by decide) fun w hw => (hws w hw).2
  rw [redisvFormatCommand, cStr_of_nulFree hnul]
  by_cases hpercent : '%' ∈ ([' '].intercalate ws).dropLast
  · refine ⟨fun h => ?_, fun h => absurd hpercent h.2⟩
    have hlt := (length_of_percent rfl h).2 rfl hpercent
    have hzero : FormatState.length ⟨[], false, [], []⟩ = 0 := rfl
    rw [hzero, inked_intercalate hspace] at hlt
    omega
  · rw [scan_of_no_percent hpercent (by simp) (by simp)]
    simp only [List.nil_append, words_intercalate hspace hne]
    rw [Formatted.ok.injEq, List.filter_eq_self]
    simp [hpercent]

end Scan

/-! ### The commands of `RedisDB` -/

/-- A printable character that is no space. -/
def IsPrintable (c : Char) : Prop := 33 ≤ c.toNat ∧ c.toNat ≤ 126

instance (c : Char) : Decidable (IsPrintable c) :=
  @instDecidableAnd _ _ (Nat.decLe _ _) (Nat.decLe _ _)

/-- A string of such characters. -/
def Printable (s : Str) : Prop := ∀ c ∈ s, IsPrintable c

instance (s : Str) : Decidable (Printable s) := List.decidableBAll _ s

theorem Printable.plain {s : Str} (h : Printable s) : ' ' ∉ s ∧ NulFree s := by
  refine ⟨fun hmem => ?_, fun hmem => ?_⟩
  · have hlow : 33 ≤ 32 := (h ' ' hmem).1
    omega
  · have hlow : 33 ≤ 0 := (h nul hmem).1
    omega

namespace RedisDB

/-- The text that `Update` builds. -/
def updateCommand (key : Str) (values : List (Str × Str)) : Str :=
  values.foldl (fun cmd p => cmd ++ ' ' :: p.1 ++ ' ' :: p.2) ("HMSET".toList ++ ' ' :: key)

/-- The text that `Delete` builds. -/
def deleteCommand (key : Str) : Str := "DEL ".toList ++ key

/-- The arguments that `Update` is to send. -/
def updateArguments (key : Str) (values : List (Str × Str)) : List Str :=
  "HMSET".toList :: key :: values.flatMap fun p => [p.1, p.2]

/-- The arguments that `Delete` is to send. -/
def deleteArguments (key : Str) : List Str := ["DEL".toList, key]

theorem forall_mem_updateArguments {P : Str → Prop} {key : Str} {values : List (Str × Str)} :
    (∀ w ∈ updateArguments key values, P w) ↔
      P "HMSET".toList ∧ P key ∧ ∀ p ∈ values, P p.1 ∧ P p.2 := by
  rw [updateArguments, List.forall_mem_cons, List.forall_mem_cons, List.forall_mem_flatMap]
  simp

theorem forall_mem_deleteArguments {P : Str → Prop} {key : Str} :
    (∀ w ∈ deleteArguments key, P w) ↔ P "DEL".toList ∧ P key := by
  rw [deleteArguments, List.forall_mem_cons, List.forall_mem_singleton]

theorem updateCommand_eq (key : Str) (values : List (Str × Str)) :
    updateCommand key values = [' '].intercalate (updateArguments key values) := by
  have hfold : ∀ ws : List Str, ws ≠ [] →
      values.foldl (fun cmd p => cmd ++ ' ' :: p.1 ++ ' ' :: p.2) ([' '].intercalate ws) =
        [' '].intercalate (ws ++ values.flatMap fun p => [p.1, p.2]) := by
    induction values with
    | nil =>
      intro ws _
      rw [List.flatMap_nil, List.append_nil]
      rfl
    | cons p values ih =>
      intro ws hne
      rw [List.foldl_cons, ← intercalate_concat hne, ← intercalate_concat (by simp), ih _ (by simp),
        List.flatMap_cons, List.append_assoc, List.append_assoc]
      rfl
  have hstart : "HMSET".toList ++ ' ' :: key = [' '].intercalate ["HMSET".toList, key] := by
    simp [List.intercalate]
  rw [updateCommand, hstart, hfold _ (by simp)]
  rfl

theorem deleteCommand_eq (key : Str) :
    deleteCommand key = [' '].intercalate (deleteArguments key) := by
  simp [deleteCommand, deleteArguments, List.intercalate]

/-- **When the commands carry their arguments.** For printable strings, the text of `Update` is
formatted into its arguments if and only if none of them is empty and no `%` comes before the last
character of the text, and likewise for `Delete`. -/
theorem arguments_iff (vprintf : Str → VaArg → Str) {key : Str} {values : List (Str × Str)}
    (hkey : Printable key) (hvalues : ∀ p ∈ values, Printable p.1 ∧ Printable p.2) :
    (redisvFormatCommand vprintf (updateCommand key values) [] =
        .ok (updateArguments key values) [] ↔
      (key ≠ [] ∧ ∀ p ∈ values, p.1 ≠ [] ∧ p.2 ≠ []) ∧
        '%' ∉ (updateCommand key values).dropLast) ∧
    (redisvFormatCommand vprintf (deleteCommand key) [] = .ok (deleteArguments key) [] ↔
      key ≠ [] ∧ '%' ∉ (deleteCommand key).dropLast) := by
  refine ⟨?_, ?_⟩
  · have hplain : ∀ w ∈ updateArguments key values, ' ' ∉ w ∧ NulFree w :=
      forall_mem_updateArguments.2 ⟨by decide, hkey.plain, fun p hp =>
        ⟨(hvalues p hp).1.plain, (hvalues p hp).2.plain⟩⟩
    have hnonempty : (∀ w ∈ updateArguments key values, w ≠ []) ↔
        key ≠ [] ∧ ∀ p ∈ values, p.1 ≠ [] ∧ p.2 ≠ [] := by
      rw [forall_mem_updateArguments, and_iff_right (by decide)]
    rw [updateCommand_eq, formatCommand_intercalate_iff hplain (List.cons_ne_nil _ _), hnonempty]
  · have hplain : ∀ w ∈ deleteArguments key, ' ' ∉ w ∧ NulFree w :=
      forall_mem_deleteArguments.2 ⟨by decide, hkey.plain⟩
    have hnonempty : (∀ w ∈ deleteArguments key, w ≠ []) ↔ key ≠ [] := by
      rw [forall_mem_deleteArguments, and_iff_right (by decide)]
    rw [deleteCommand_eq, formatCommand_intercalate_iff hplain (List.cons_ne_nil _ _), hnonempty]

/-- An `Update` of one field. -/
theorem arguments_one_field :
    redisvFormatCommand (fun _ _ => [])
      (updateCommand "user0".toList [("field0".toList, "ab".toList)]) [] =
        .ok ["HMSET".toList, "user0".toList, "field0".toList, "ab".toList] [] := by
  have hkey : Printable "user0".toList := by decide
  have hvalues : ∀ p ∈ [("field0".toList, "ab".toList)], Printable p.1 ∧ Printable p.2 := by decide
  exact (arguments_iff (fun _ _ => []) hkey hvalues).1.2 ⟨by decide, by decide⟩

/-- A value of two `%` is sent as one. -/
theorem percent_sent_once :
    Printable "user0".toList ∧ Printable "field0".toList ∧ Printable "%%".toList ∧
      redisvFormatCommand (fun _ _ => [])
        (updateCommand "user0".toList [("field0".toList, "%%".toList)]) [] =
          .ok ["HMSET".toList, "user0".toList, "field0".toList, "%".toList] [] ∧
      redisvFormatCommand (fun _ _ => [])
        (updateCommand "user0".toList [("field0".toList, "%%".toList)]) [] ≠
          .ok (updateArguments "user0".toList [("field0".toList, "%%".toList)]) [] := by
  decide

end RedisDB

end YcsbC
