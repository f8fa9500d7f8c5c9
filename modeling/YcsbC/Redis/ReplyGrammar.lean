import Mathlib.Data.List.Forall2
import Mathlib.Tactic.Ring
import YcsbC.Redis.ReplyStream

/-!
# The texts that the reader accepts

A grammar of replies: a type byte and a line, and behind it the bytes of a string or the items of an
array. The reader is generous. A number that is not one counts as -1, so that `$x` is a null string;
the two bytes behind a string may be any; a count below -1 makes an array without items; and arrays
may be eight deep.

## Main definitions

* `IsLine`, `number`, `Opens`: lines, the numbers that they hold, and the counts of arrays.
* `Encodes`: the texts of a reply.
* `Unfinished`, `Invalid`, `Broken`: the starts of a reply, and what goes wrong behind them.

## Main results

* `Encodes.creates`: what the grammar derives is read, its reply being created with the last item.
* `Encodes.takes`, `Broken.takes`: the machine on the text of a reply, and on one that goes wrong.
-/

namespace YcsbC

/-! ### Lines -/

/-- The end of a line. -/
def crlf : Str := ['\r', '\n']

/-- A text without the end of a line in it. -/
def IsLine (line : Str) : Prop := findCrlf line = none

instance (line : Str) : Decidable (IsLine line) := inferInstanceAs (Decidable (_ = _))

/-- The number that a line holds. -/
def number (line : Str) : Option ℤ := readLongLong (line ++ crlf)

/-- The line opens an array of `n` items, where `n` is its number cut to an `int`. -/
structure Opens (line : Str) (n : ℤ) : Prop where
  pos : 0 < n
  number : ∃ k, number line = some k ∧ 0 < k ∧ Int.bmod k (2 ^ 32) = n

theorem opens_of_number {line : Str} {n : ℤ} (hn : number line = some n) (hpos : 0 < n)
    (hlt : n < 2 ^ 31) : Opens line n :=
  ⟨hpos, n, hn, hpos, Int.bmod_eq_of_le (by omega) (by omega)⟩

theorem IsLine.findCrlf {line : Str} (h : IsLine line) (b : Str) :
    findCrlf (line ++ (crlf ++ b)) = some line.length := by
  induction line with
  | nil => rfl
  | cons c line ih =>
    rw [IsLine, YcsbC.findCrlf] at h
    split_ifs at h with hcrlf
    have hline : IsLine line := Option.map_eq_none_iff.1 h
    have hnot : ¬ (c = '\r' ∧ (line ++ (crlf ++ b)).head? = some '\n') := by
      rintro ⟨hc, hhead⟩
      obtain _ | ⟨d, line⟩ := line
      · cases hhead
      · exact hcrlf ⟨hc, hhead⟩
    rw [List.cons_append, YcsbC.findCrlf, if_neg hnot, ih hline]
    rfl

theorem isLine_of_findCrlf {b : Str} {n : ℕ} (h : findCrlf b = some n) :
    IsLine (b.take n) ∧ b = b.take n ++ (crlf ++ b.drop (n + 2)) := by
  induction b generalizing n with
  | nil => cases h
  | cons c b ih =>
    rw [findCrlf] at h
    split_ifs at h with hcrlf
    · obtain rfl := Option.some.inj h
      obtain ⟨rfl, hhead⟩ := hcrlf
      obtain ⟨b, rfl⟩ := List.head?_eq_some_iff.1 hhead
      exact ⟨rfl, rfl⟩
    · obtain ⟨m, hm, rfl⟩ := Option.map_eq_some_iff.1 h
      obtain ⟨hline, hb⟩ := ih hm
      refine ⟨?_, congrArg (c :: ·) hb⟩
      have hnot : ¬ (c = '\r' ∧ (b.take m).head? = some '\n') := by
        rintro ⟨hc, hhead⟩
        obtain ⟨b', hb'⟩ := List.head?_eq_some_iff.1 hhead
        refine hcrlf ⟨hc, ?_⟩
        rw [hb, hb']
        rfl
      rw [List.take_succ_cons, IsLine, findCrlf, if_neg hnot, hline]
      rfl

/-- The number that the bytes start with is that of their line. -/
theorem readLongLong_line (line b : Str) : readLongLong (line ++ (crlf ++ b)) = number line := by
  rw [← List.append_assoc, readLongLong_append (by simp [crlf]), number]

/-! ### The grammar -/

/-- The texts of a reply that is in `d` arrays. -/
inductive Encodes : ℕ → RedisReply → Str → Prop
  | status {d : ℕ} {line : Str} (h : IsLine line) :
      Encodes d (.status line) ('+' :: (line ++ crlf))
  | error {d : ℕ} {line : Str} (h : IsLine line) : Encodes d (.error line) ('-' :: (line ++ crlf))
  | integer {d : ℕ} {line : Str} {n : ℤ} (h : IsLine line) (hn : number line = some n) :
      Encodes d (.integer n) (':' :: (line ++ crlf))
  | nullString {d : ℕ} {line : Str} {n : ℤ} (h : IsLine line) (hn : number line = some n)
      (hneg : n < 0) : Encodes d .nil ('$' :: (line ++ crlf))
  | string {d : ℕ} {line str tail : Str} (h : IsLine line)
      (hn : number line = some (str.length : ℤ)) (htail : tail.length = 2) :
      Encodes d (.string str) ('$' :: (line ++ (crlf ++ (str ++ tail))))
  | nullArray {d : ℕ} {line : Str} (h : IsLine line) (hn : number line = some (-1))
      (hd : d < 8) : Encodes d .nil ('*' :: (line ++ crlf))
  | emptyArray {d : ℕ} {line : Str} {n : ℤ} (h : IsLine line) (hn : number line = some n)
      (hneg : n ≤ 0) (hnull : n ≠ -1) (hd : d < 8) :
      Encodes d (RedisReader.createArrayObject n) ('*' :: (line ++ crlf))
  | array {d : ℕ} {line : Str} {elements : List RedisReply} {bs : List Str} (h : IsLine line)
      (hopens : Opens line elements.length) (hd : d < 8) (hbs : elements.length = bs.length)
      (helements : ∀ obj b, (obj, b) ∈ elements.zip bs → Encodes (d + 1) obj b) :
      Encodes d (.array elements) ('*' :: (line ++ (crlf ++ bs.flatten)))

/-- The bytes `b` start a reply and end where an item of `d` arrays is expected: the lines of these
arrays, and behind each one its items that are complete. -/
inductive Unfinished : ℕ → Str → Prop
  | start : Unfinished 0 []
  | item {d : ℕ} {b line : Str} {n : ℤ} {elements : List RedisReply} {bs : List Str}
      (h : Unfinished d b) (hd : d < 8) (hline : IsLine line) (hopens : Opens line n)
      (helements : List.Forall₂ (Encodes (d + 1)) elements bs) (hlt : elements.length < n) :
      Unfinished (d + 1) (b ++ '*' :: (line ++ (crlf ++ bs.flatten)))

/-- The bytes that are no item of `d` arrays, with the error. -/
inductive Invalid : ℕ → Str → ReaderError → Prop
  | type {d : ℕ} {byte : Char} (h : ReplyType.ofByte byte = none) :
      Invalid d [byte] (protocolByte byte)
  | depth : Invalid 8 ['*'] tooDeep
  | overflow {d : ℕ} {byte : Char} {line : Str} (hbyte : byte ∈ [':', '$', '*'])
      (hd : byte = '*' → d < 8) (h : IsLine line) (hn : number line = none) :
      Invalid d (byte :: (line ++ crlf)) .undefined
  | count {d : ℕ} {line : Str} {n : ℤ} (hd : d < 8) (h : IsLine line) (hn : number line = some n)
      (hpos : 0 < n) (hcount : Int.bmod n (2 ^ 32) ≤ 0) :
      Invalid d ('*' :: (line ++ crlf)) .undefined

/-- A reply that goes wrong at the end of `b`. -/
def Broken (b : Str) (e : ReaderError) : Prop :=
  ∃ d front t, b = front ++ t ∧ Unfinished d front ∧ Invalid d t e

/-- An array whose count is written as it is. -/
theorem Encodes.array_of_number {d : ℕ} {line : Str} {elements : List RedisReply} {bs : List Str}
    (h : IsLine line) (hn : number line = some (elements.length : ℤ)) (hd : d < 8)
    (hlength : elements.length < 2 ^ 31) (hitems : List.Forall₂ (Encodes (d + 1)) elements bs) :
    Encodes d (.array elements) ('*' :: (line ++ (crlf ++ bs.flatten))) := by
  cases hitems with
  | nil => exact .emptyArray h hn le_rfl (by decide) hd
  | cons hobj hrest =>
    have hitems := List.Forall₂.cons hobj hrest
    refine .array h (opens_of_number hn ?_ (by exact_mod_cast hlength)) hd hitems.length_eq
      fun _ _ hmem => (List.forall₂_iff_zip.1 hitems).2 hmem
    rw [List.length_cons]
    omega

/-! ### What the grammar derives is read -/

/-- At a task whose type is not known the machine takes `b` and emits nothing up to the last item,
which creates `obj`. -/
def Creates (cur : ReadTask) (rest : List ReadTask) (b : Str) (obj : RedisReply) : Prop :=
  ∃ front last mid, b = front ++ last ∧ replyMachine.Takes (.reading cur rest) front [] mid ∧
    replyMachine.step mid last =
      some ⟨last.length, (moveToNextTask obj cur rest).2, .ofStack (moveToNextTask obj cur rest).1⟩

theorem moveToNextTask_congr {cur cur' : ReadTask} (h : cur.idx = cur'.idx) (obj : RedisReply)
    (rest : List ReadTask) : moveToNextTask obj cur rest = moveToNextTask obj cur' rest := by
  cases rest with
  | nil => rfl
  | cons prv rest => simp only [moveToNextTask, h]

theorem takes_type {cur : ReadTask} (hcur : cur.type = none) {rest : List ReadTask} {byte : Char}
    {type : ReplyType} (hbyte : ReplyType.ofByte byte = some type)
    (hdeep : ¬ (type = .array ∧ rest.length = 8)) :
    replyMachine.Takes (.reading cur rest) [byte] []
      (.reading { cur with type := some type } rest) := by
  have hstep : replyMachine.step (.reading cur rest) [byte] =
      some ⟨1, none, .reading { cur with type := some type } rest⟩ := by
    show ReaderState.step (.reading cur rest) [byte] = _
    rw [ReaderState.step, hcur]
    simp only [ReaderState.typed, hbyte, if_neg hdeep]
  exact .single hstep rfl

theorem creates_item {cur : ReadTask} (hcur : cur.type = none) {rest : List ReadTask} {byte : Char}
    {type : ReplyType} (hbyte : ReplyType.ofByte byte = some type)
    (hdeep : ¬ (type = .array ∧ rest.length = 8)) {b : Str} {obj : RedisReply}
    (hitem : takeItem type b = some (b.length, .object obj)) :
    Creates cur rest (byte :: b) obj := by
  refine ⟨[byte], b, _, rfl, takes_type hcur hbyte hdeep, ?_⟩
  rw [ReaderState.step_typed rfl, hitem, Option.map_some]
  have hmove : moveToNextTask obj { cur with type := some type } rest =
      moveToNextTask obj cur rest := moveToNextTask_congr (by rfl) obj rest
  simp only [ReaderState.settle, hmove]

theorem takeItem_line {type : ReplyType} (htype : type ≠ .string) {line : Str} (h : IsLine line)
    (b : Str) :
    takeItem type (line ++ (crlf ++ b)) =
      some (line.length + 2, lineItem type line (number line)) := by
  rw [takeItem, h.findCrlf, Option.bind_some, if_neg htype, List.take_left, readLongLong_line]

/-- The task of the item `i` of an array. -/
def ReadTask.item (i : ℕ) : ReadTask := ⟨none, -1, i, []⟩

theorem moveToNextTask_last {prv : ReadTask} {done : List RedisReply} (hobj : prv.obj = done)
    (helements : prv.elements = done.length + 1) (obj : RedisReply) (rest : List ReadTask) :
    moveToNextTask obj (.item done.length) (prv :: rest) =
      moveToNextTask (.array (done ++ [obj])) prv rest := by
  have hlast : (ReadTask.item done.length).idx = prv.elements - 1 := by
    show (done.length : ℤ) = prv.elements - 1
    omega
  rw [moveToNextTask, if_pos hlast, hobj]
  exact moveToNextTask_congr (by rfl) _ rest

theorem moveToNextTask_next {prv : ReadTask} {done : List RedisReply} (hobj : prv.obj = done)
    (helements : (done.length : ℤ) + 1 < prv.elements) (obj : RedisReply) (rest : List ReadTask) :
    moveToNextTask obj (.item done.length) (prv :: rest) =
      (.item (done ++ [obj]).length :: { prv with obj := done ++ [obj] } :: rest, none) := by
  have hlast : (ReadTask.item done.length).idx ≠ prv.elements - 1 := by
    show (done.length : ℤ) ≠ prv.elements - 1
    omega
  rw [moveToNextTask, if_neg hlast, hobj, List.length_append, List.length_singleton]
  rfl

/-- Items of an array that are not the last one; those in `done` have been created. -/
theorem takes_items {rest : List ReadTask} {elements : List RedisReply} {bs : List Str}
    (h : List.Forall₂ (fun obj b => ∀ i prv, Creates (.item i) (prv :: rest) b obj) elements bs)
    {prv : ReadTask} {done : List RedisReply} (hobj : prv.obj = done)
    (helements : (done.length + elements.length : ℤ) < prv.elements) :
    replyMachine.Takes (.reading (.item done.length) (prv :: rest)) bs.flatten []
      (.reading (.item (done ++ elements).length)
        ({ prv with obj := done ++ elements } :: rest)) := by
  induction h generalizing done prv with
  | nil =>
    obtain rfl := hobj
    rw [List.append_nil]
    exact .refl _
  | @cons obj b elements bs hobj' hrest ih =>
    obtain ⟨front, last, mid, rfl, htakes, hstep⟩ := hobj' done.length prv
    rw [List.length_cons] at helements
    rw [moveToNextTask_next hobj (by omega)] at hstep
    have hcount : ((done ++ [obj]).length + elements.length : ℤ) <
        ({ prv with obj := done ++ [obj] } : ReadTask).elements := by
      rw [List.length_append, List.length_singleton]
      push_cast at helements ⊢
      omega
    have hitems := ih (by rfl) hcount
    rw [List.append_assoc, List.singleton_append] at hitems
    exact (htakes.trans (.single hstep rfl)).trans hitems

/-- The line that opens an array. -/
theorem takes_open {cur : ReadTask} (hcur : cur.type = none) {rest : List ReadTask}
    (hdeep : rest.length ≠ 8) {line : Str} (h : IsLine line) {n : ℤ} (hopens : Opens line n) :
    replyMachine.Takes (.reading cur rest) ('*' :: (line ++ crlf)) []
      (.reading .child ({ cur with type := some .array, elements := n, obj := [] } :: rest)) := by
  have hitem : lineItem .array line (number line) = .opens n := by
    obtain ⟨hpos, k, hk, hk0, rfl⟩ := hopens
    simp only [hk, lineItem, Option.elim_some]
    rw [if_neg (by omega), if_pos hk0, if_pos hpos]
  have hline := takeItem_line (by decide : ReplyType.array ≠ .string) h []
  rw [List.append_nil, hitem] at hline
  have hopen : replyMachine.step (.reading { cur with type := some .array } rest) (line ++ crlf) =
      some ⟨line.length + 2, none,
        .reading .child ({ cur with type := some .array, elements := n, obj := [] } :: rest)⟩ := by
    rw [ReaderState.step_typed rfl, hline]
    rfl
  exact (takes_type hcur rfl fun hdeep' => hdeep hdeep'.2).trans (.single hopen (by simp [crlf]))

theorem creates_array {cur : ReadTask} (hcur : cur.type = none) {rest : List ReadTask}
    (hdeep : rest.length ≠ 8) {line : Str} (h : IsLine line) {elements : List RedisReply}
    {bs : List Str} (hopens : Opens line elements.length)
    (hitems : List.Forall₂ (fun obj b => ∀ i prv, Creates (.item i) (prv :: rest) b obj)
      elements bs) :
    Creates cur rest ('*' :: (line ++ (crlf ++ bs.flatten))) (.array elements) := by
  rcases bs.eq_nil_or_concat' with rfl | ⟨init, b, rfl⟩
  · obtain rfl := List.forall₂_nil_right_iff.1 hitems
    exact absurd hopens.pos (lt_irrefl 0)
  · -- the line opens the array, the items follow, and the last one completes it
    have htake := List.forall₂_take_append elements init [b] hitems
    obtain ⟨obj, _, hobj, hnone, hdrop⟩ :=
      List.forall₂_cons_right_iff.1 (List.forall₂_drop_append elements init [b] hitems)
    cases hnone
    have hsplit : elements = elements.take init.length ++ [obj] := by
      rw [← hdrop, List.take_append_drop]
    generalize elements.take init.length = done at htake hsplit
    obtain rfl := hsplit
    have hcount : ((done ++ [obj]).length : ℤ) = done.length + 1 := by
      rw [List.length_append, List.length_singleton]
      rfl
    have hopen := takes_open hcur hdeep h hopens
    let opened : ReadTask :=
      { cur with type := some .array, elements := ((done ++ [obj]).length : ℤ), obj := [] }
    have hfewer : (([] : List RedisReply).length + done.length : ℤ) < opened.elements := by
      show _ < ((done ++ [obj]).length : ℤ)
      simp
    have hdone := @takes_items rest done init htake opened [] rfl hfewer
    rw [List.nil_append] at hdone
    obtain ⟨front, last, mid, rfl, hfront, hstep⟩ := hobj done.length
      { opened with obj := done }
    have hcongr : ∀ whole, moveToNextTask whole { opened with obj := done } rest =
        moveToNextTask whole cur rest := fun whole => moveToNextTask_congr (by rfl) whole rest
    rw [moveToNextTask_last (by rfl) hcount, hcongr] at hstep
    refine ⟨'*' :: (line ++ crlf) ++ init.flatten ++ front, last, mid, ?_,
      (hopen.trans hdone).trans hfront, hstep⟩
    simp

/-- **What the grammar derives is read.** -/
theorem Encodes.creates {d : ℕ} {obj : RedisReply} {b : Str} (h : Encodes d obj b)
    {cur : ReadTask} {rest : List ReadTask} (hcur : cur.type = none) (hd : rest.length = d) :
    Creates cur rest b obj := by
  have hline : ∀ {type : ReplyType} {line : Str} {obj : RedisReply}, type ≠ .string → IsLine line →
      lineItem type line (number line) = .object obj →
        takeItem type (line ++ crlf) = some ((line ++ crlf).length, .object obj) := by
    intro type line obj htype h hitem
    have htake := takeItem_line htype h []
    rw [List.append_nil, hitem] at htake
    rw [htake, List.length_append]
    rfl
  induction h generalizing cur rest with
  | status h =>
    exact creates_item hcur rfl (by simp) (hline (by decide) h rfl)
  | error h => exact creates_item hcur rfl (by simp) (hline (by decide) h rfl)
  | integer h hn =>
    exact creates_item hcur rfl (by simp) (hline (by decide) h (by rw [hn]; rfl))
  | @nullString _ line n h hn hneg =>
    refine creates_item hcur rfl (by simp) ?_
    have hfind := h.findCrlf []
    have hnumber := readLongLong_line line []
    rw [List.append_nil] at hfind hnumber
    rw [takeItem, hfind, Option.bind_some, if_pos rfl, hnumber, hn]
    simp only [if_pos hneg, List.length_append]
    rfl
  | @string _ line str tail h hn htail =>
    refine creates_item hcur rfl (by simp) ?_
    have hlength : (line ++ (crlf ++ (str ++ tail))).length =
        line.length + 2 + (str.length + 2) := by
      simp [crlf, htail]
      omega
    have hdrop : (line ++ (crlf ++ (str ++ tail))).drop (line.length + 2) = str ++ tail := by
      rw [← List.append_assoc]
      exact List.drop_left' (by simp [crlf])
    rw [takeItem, h.findCrlf, Option.bind_some, if_pos rfl, readLongLong_line, hn]
    simp only [hlength, hdrop, Int.toNat_natCast, List.take_left,
      if_neg (Int.natCast_nonneg _).not_gt, Nat.le_refl, if_true]
  | nullArray h hn hlt =>
    refine creates_item hcur rfl (by simp; omega) (hline (by decide) h ?_)
    rw [hn]
    rfl
  | @emptyArray _ line n h hn hneg hnull hlt =>
    refine creates_item hcur rfl (by simp; omega) (hline (by decide) h ?_)
    rw [hn, lineItem, Option.elim_some, if_neg hnull, if_neg (by omega)]
  | array h hopens hlt hbs helements ih =>
    exact creates_array hcur (by omega) h hopens <|
      List.forall₂_iff_zip.2 ⟨hbs, fun hmem i prv => ih _ _ hmem rfl (by rw [List.length_cons, hd])⟩

/-! ### Whole replies -/

/-- A text is taken as its reply. -/
theorem Encodes.takes {obj : RedisReply} {b : Str} (h : Encodes 0 obj b) :
    replyMachine.Takes .idle b [obj] .idle := by
  obtain ⟨front, last, mid, rfl, htakes, hstep⟩ :=
    h.creates (by rfl : ReadTask.root.type = none) (by rfl : ([] : List ReadTask).length = 0)
  exact htakes.trans (.single hstep rfl)

theorem takes_of_encodes {rs : List RedisReply} {bs : List Str}
    (h : List.Forall₂ (Encodes 0) rs bs) : replyMachine.Takes .idle bs.flatten rs .idle := by
  induction h with
  | nil => exact .refl _
  | cons hb _ ih => exact hb.takes.trans ih

/-- The start of a reply leads to the task of the item that is expected. -/
theorem Unfinished.takes {d : ℕ} {b : Str} (h : Unfinished d b) :
    ∃ cur rest, cur.type = none ∧ rest.length = d ∧
      replyMachine.Takes .idle b [] (.reading cur rest) := by
  induction h with
  | start => exact ⟨.root, [], rfl, rfl, .refl _⟩
  | @item d b line n elements bs h hd hline hopens helements hlt ih =>
    obtain ⟨cur, rest, hcur, rfl, htakes⟩ := ih
    have hopen := takes_open hcur (Nat.ne_of_lt hd) hline hopens
    have hcreates : List.Forall₂ (fun obj b => ∀ i prv, Creates (.item i) (prv :: rest) b obj)
        elements bs := helements.imp fun _ _ hobj i prv => hobj.creates (by rfl) (by rfl)
    let opened : ReadTask := { cur with type := some .array, elements := n, obj := [] }
    have hfewer : (([] : List RedisReply).length + elements.length : ℤ) < opened.elements := by
      rw [List.length_nil, Nat.cast_zero, zero_add]
      exact hlt
    have hitems := @takes_items rest elements bs hcreates opened [] rfl hfewer
    refine ⟨.item elements.length, { opened with obj := elements } :: rest, rfl, rfl, ?_⟩
    have htext : b ++ '*' :: (line ++ (crlf ++ bs.flatten)) =
        b ++ ('*' :: (line ++ crlf) ++ bs.flatten) := by simp
    rw [htext]
    exact htakes.trans (hopen.trans hitems)

theorem takes_fails {cur : ReadTask} (hcur : cur.type = none) {rest : List ReadTask} {byte : Char}
    {type : ReplyType} (hbyte : ReplyType.ofByte byte = some type)
    (hdeep : ¬ (type = .array ∧ rest.length = 8)) {b : Str} {e : ReaderError}
    (hitem : takeItem type b = some (b.length, .fails e)) :
    replyMachine.Takes (.reading cur rest) (byte :: b) [] (.failed e) := by
  have hstep : replyMachine.step (.reading { cur with type := some type } rest) b =
      some ⟨b.length, none, .failed e⟩ := by
    rw [ReaderState.step_typed rfl, hitem]
    rfl
  exact (takes_type hcur hbyte hdeep).trans (.single hstep rfl)

theorem Invalid.takes {d : ℕ} {b : Str} {e : ReaderError} (h : Invalid d b e) {cur : ReadTask}
    {rest : List ReadTask} (hcur : cur.type = none) (hd : rest.length = d) :
    replyMachine.Takes (.reading cur rest) b [] (.failed e) := by
  have hbad : ∀ byte, ReaderState.typed cur rest byte = .failed e →
      replyMachine.Takes (.reading cur rest) [byte] [] (.failed e) := by
    intro byte htyped
    have hstep : replyMachine.step (.reading cur rest) [byte] = some ⟨1, none, .failed e⟩ := by
      show ReaderState.step (.reading cur rest) [byte] = _
      rw [ReaderState.step, hcur]
      simp only [htyped]
    exact .single hstep rfl
  have hline : ∀ {type : ReplyType} {line : Str}, type ≠ .string → IsLine line →
      lineItem type line (number line) = .fails e →
        takeItem type (line ++ crlf) = some ((line ++ crlf).length, .fails e) := by
    intro type line htype h hitem
    have htake := takeItem_line htype h []
    rw [List.append_nil, hitem] at htake
    rw [htake, List.length_append]
    rfl
  cases h with
  | type h => exact hbad _ (by rw [ReaderState.typed, h])
  | depth => exact hbad '*' (if_pos ⟨rfl, hd⟩)
  | @overflow _ byte line hbyte hlt h hn =>
    simp only [List.mem_cons, List.not_mem_nil, or_false] at hbyte
    rcases hbyte with rfl | rfl | rfl
    · exact takes_fails hcur rfl (by simp) (hline (by decide) h (by rw [hn]; rfl))
    · have hfind := h.findCrlf []
      have hnumber := readLongLong_line line []
      rw [List.append_nil] at hfind hnumber
      refine takes_fails hcur rfl (by simp) ?_
      rw [takeItem, hfind, Option.bind_some, if_pos rfl, hnumber, hn, List.length_append]
      rfl
    · have hdeep := hlt rfl
      exact takes_fails hcur rfl (by omega) (hline (by decide) h (by rw [hn]; rfl))
  | @count _ line n hlt h hn hpos hcount =>
    refine takes_fails hcur rfl (by omega) (hline (by decide) h ?_)
    rw [hn, lineItem, Option.elim_some, if_neg (by omega), if_pos hpos, if_neg (not_lt.2 hcount)]

theorem Broken.takes {b : Str} {e : ReaderError} (h : Broken b e) :
    replyMachine.Takes .idle b [] (.failed e) := by
  obtain ⟨d, front, t, rfl, hfront, he⟩ := h
  obtain ⟨cur, rest, hcur, hd, htakes⟩ := hfront.takes
  exact htakes.trans (he.takes hcur hd)

end YcsbC
