import YcsbC.Redis.ReplyGrammar

/-!
# What the reader accepts is derived

The reader returns a reply only for a text that the grammar derives, and it stops with an error only
where a reply goes wrong. So the replies and the errors of a stream are known exactly, however it is
cut into pieces; and since a reply is created with its last item, it is returned with the piece that
holds its last byte.

## Main definitions

* `Around`, `At`: what the machine has taken of a reply.
* `complete`: how many texts a stream holds that has not arrived as a whole.

## Main results

* `At.step`, `At.first`: what is read is derived.
* `RedisReader.prefix_replies_iff`, `RedisReader.err_eq_some_iff`: the replies and the errors of a
  stream.
* `RedisReader.replies_eq_take`: a stream that breaks off.
-/

namespace YcsbC

/-! ### What is read is derived -/

/-- The byte of a type. -/
def ReplyType.byte : ReplyType → Char
  | error => '-'
  | status => '+'
  | integer => ':'
  | string => '$'
  | array => '*'

theorem ReplyType.eq_byte {c : Char} {type : ReplyType} (h : ofByte c = some type) :
    c = type.byte := by
  unfold ofByte at h
  split at h <;> cases h <;> rfl

/-- What an item is, by the bytes that are taken for it. -/
def Item.Derived (d : ℕ) (type : ReplyType) (b : Str) : Item → Prop
  | object obj => Encodes d obj (type.byte :: b)
  | opens n => type = .array ∧ ∃ line, IsLine line ∧ b = line ++ crlf ∧ Opens line n
  | fails e => Invalid d (type.byte :: b) e

theorem lineItem_derived {d : ℕ} {type : ReplyType} (htype : type ≠ .string)
    (hd : type = .array → d < 8) {line : Str} (h : IsLine line) :
    (lineItem type line (number line)).Derived d type (line ++ crlf) := by
  cases type with
  | string => exact absurd rfl htype
  | status => exact .status h
  | error => exact .error h
  | integer =>
    rw [lineItem]
    cases hn : number line with
    | none => exact .overflow (by decide) (by rintro ⟨⟩) h hn
    | some n => exact .integer h hn
  | array =>
    rw [lineItem]
    cases hn : number line with
    | none => exact .overflow (by decide) (fun _ => hd rfl) h hn
    | some n =>
      rw [Option.elim_some]
      split_ifs with hnull hpos hcount
      · exact .nullArray h (hn.trans (congrArg some hnull)) (hd rfl)
      · exact ⟨rfl, line, h, rfl, hcount, n, hn, hpos, rfl⟩
      · exact .count (hd rfl) h hn hpos (not_lt.1 hcount)
      · exact .emptyArray h hn (not_lt.1 hpos) hnull (hd rfl)

theorem take_string {b : Str} {len n : ℕ} (hb : b = b.take len ++ (crlf ++ b.drop (len + 2)))
    (hthere : len + 2 + (n + 2) ≤ b.length) :
    ∃ tail : Str, tail.length = 2 ∧ ((b.drop (len + 2)).take n).length = n ∧
      b.take (len + 2 + (n + 2)) =
        b.take len ++ (crlf ++ ((b.drop (len + 2)).take n ++ tail)) := by
  have hlength : (b.drop (len + 2)).length = b.length - (len + 2) := List.length_drop
  refine ⟨((b.drop (len + 2)).drop n).take 2, ?_, List.length_take_of_le (by omega), ?_⟩
  · rw [List.length_take_of_le]
    rw [List.length_drop]
    omega
  · have hfront : (b.take len ++ crlf).length = len + 2 := by
      rw [List.length_append, List.length_take_of_le (by omega)]
      rfl
    rw [← List.take_add, ← List.append_assoc]
    conv_lhs => rw [hb, ← List.append_assoc]
    rw [← hfront, List.take_length_add_append, hfront]

theorem takeItem_derived {d : ℕ} {type : ReplyType} (hd : type = .array → d < 8) {b : Str}
    {n : ℕ} {item : Item} (h : takeItem type b = some (n, item)) :
    item.Derived d type (b.take n) := by
  obtain ⟨len, hlen, hitem⟩ := Option.bind_eq_some_iff.1 h
  obtain ⟨hline, hb⟩ := isLine_of_findCrlf hlen
  have hle := add_two_le_of_findCrlf hlen
  have hnumber : readLongLong b = number (b.take len) := by
    conv_lhs => rw [hb]
    exact readLongLong_line _ _
  have htake : b.take (len + 2) = b.take len ++ crlf := by
    conv_lhs => rw [hb, ← List.append_assoc]
    exact List.take_left' (by simp [crlf]; omega)
  rw [hnumber] at hitem
  split_ifs at hitem with htype
  · obtain rfl := htype
    cases hn : number (b.take len) with
    | none =>
      rw [hn] at hitem
      cases hitem
      rw [htake]
      exact .overflow (by decide) (by rintro ⟨⟩) hline hn
    | some k =>
      rw [hn] at hitem
      simp only at hitem
      split_ifs at hitem with hneg hthere
      · cases hitem
        rw [htake]
        exact .nullString hline hn hneg
      · cases hitem
        obtain ⟨tail, htail, hstr, hwhole⟩ := take_string hb hthere
        rw [hwhole]
        refine .string hline ?_ htail
        rw [hn, hstr, Int.toNat_of_nonneg (not_lt.1 hneg)]
  · cases hitem
    rw [htake]
    exact lineItem_derived htype hd hline

/-- The bytes `b` have been taken for a reply up to a task: the lines of the arrays around it, and
their items that are complete. -/
inductive Around : ReadTask → List ReadTask → Str → Prop
  | root {cur : ReadTask} : Around cur [] []
  | item {cur prv : ReadTask} {rest : List ReadTask} {b line : Str} {bs : List Str}
      (h : Around prv rest b) (hline : IsLine line) (hopens : Opens line prv.elements)
      (hd : rest.length < 8)
      (hobj : List.Forall₂ (Encodes (rest.length + 1)) prv.obj bs)
      (hidx : cur.idx = prv.obj.length) (hlt : cur.idx < prv.elements) :
      Around cur (prv :: rest) (b ++ '*' :: (line ++ (crlf ++ bs.flatten)))

namespace Around

variable {cur cur' : ReadTask} {rest : List ReadTask} {b t : Str} {obj : RedisReply}

theorem length_le (h : Around cur rest b) : rest.length ≤ 8 := by
  cases h with
  | root => exact Nat.zero_le 8
  | item _ _ _ hd => exact hd

theorem unfinished (h : Around cur rest b) : Unfinished rest.length b := by
  induction h with
  | root => exact .start
  | item h hline hopens hd hobj hidx hlt ih => exact .item ih hd hline hopens hobj (hidx ▸ hlt)

theorem congr (h : Around cur rest b) (hidx : cur.idx = cur'.idx) : Around cur' rest b := by
  cases h with
  | root => exact .root
  | item h hline hopens hd hobj hidx' hlt =>
    exact .item h hline hopens hd hobj (hidx ▸ hidx') (hidx ▸ hlt)

/-- **The next task.** The object of the current task completes the reply, or it leads to a task of
an array around it. -/
theorem move (h : Around cur rest b) (hobj : Encodes rest.length obj t) :
    (∃ reply, moveToNextTask obj cur rest = ([], some reply) ∧ Encodes 0 reply (b ++ t)) ∨
      ∃ cur' rest', moveToNextTask obj cur rest = (cur' :: rest', none) ∧ cur'.type = none ∧
        Around cur' rest' (b ++ t) := by
  induction h generalizing obj t with
  | root => exact .inl ⟨obj, rfl, hobj⟩
  | @item cur prv rest b line bs h hline hopens hd hobjs hidx hlt ih =>
    have hobjs' : List.Forall₂ (Encodes (rest.length + 1)) (prv.obj ++ [obj]) (bs ++ [t]) :=
      List.rel_append hobjs (.cons hobj .nil)
    have htext : b ++ '*' :: (line ++ (crlf ++ bs.flatten)) ++ t =
        b ++ '*' :: (line ++ (crlf ++ (bs ++ [t]).flatten)) := by simp
    rw [htext, moveToNextTask]
    split_ifs with hlast
    · replace hlast : cur.idx = prv.elements - 1 := hlast
      -- the array is complete, and it is the object of its task
      have hcount : Opens line ((prv.obj ++ [obj]).length : ℤ) := by
        have helements : prv.elements = ((prv.obj ++ [obj]).length : ℤ) := by
          rw [List.length_append, List.length_singleton]
          push_cast
          omega
        rwa [← helements]
      have harray : Encodes rest.length (.array (prv.obj ++ [obj]))
          ('*' :: (line ++ (crlf ++ (bs ++ [t]).flatten))) :=
        .array hline hcount hd hobjs'.length_eq fun _ _ hmem =>
          (List.forall₂_iff_zip.1 hobjs').2 hmem
      have hcongr : ∀ whole, moveToNextTask whole { prv with obj := prv.obj ++ [obj] } rest =
          moveToNextTask whole prv rest := fun whole => moveToNextTask_congr (by rfl) whole rest
      rw [hcongr]
      exact ih harray
    · replace hlast : cur.idx ≠ prv.elements - 1 := hlast
      refine .inr ⟨_, _, rfl, rfl, ?_⟩
      refine .item (h.congr (by rfl)) hline hopens hd hobjs' ?_ ?_
      · show cur.idx + 1 = ((prv.obj ++ [obj]).length : ℤ)
        rw [hidx, List.length_append, List.length_singleton]
        rfl
      · show cur.idx + 1 < prv.elements
        omega

end Around

/-- The machine is within a reply, for which it has taken the bytes `b`. -/
inductive At : ReaderState → Str → Prop
  | item {cur : ReadTask} {rest : List ReadTask} {b : Str} (h : Around cur rest b)
      (htype : cur.type = none) : At (.reading cur rest) b
  | typed {cur : ReadTask} {rest : List ReadTask} {b : Str} {type : ReplyType}
      (h : Around cur rest b) (htype : cur.type = some type)
      (hd : type = .array → rest.length < 8) :
      At (.reading cur rest) (b ++ [type.byte])

theorem at_idle : At .idle [] := .item .root rfl

namespace At

variable {s s' : ReaderState} {b c c' : Str} {reply : RedisReply}

/-- Behind an item whose type was known. -/
theorem settle {cur : ReadTask} {rest : List ReadTask} {type : ReplyType} {item : Item} {t : Str}
    (h : Around cur rest b) (hd : type = .array → rest.length < 8)
    (hitem : item.Derived rest.length type t) :
    (∃ e, ReaderState.settle cur rest item = (none, .failed e) ∧ Broken (b ++ type.byte :: t) e) ∨
      (∃ s', ReaderState.settle cur rest item = (none, s') ∧ At s' (b ++ type.byte :: t)) ∨
        ∃ reply, ReaderState.settle cur rest item = (some reply, .idle) ∧
          Encodes 0 reply (b ++ type.byte :: t) := by
  cases item with
  | fails e => exact .inl ⟨e, rfl, _, b, _, rfl, h.unfinished, hitem⟩
  | opens n =>
    obtain ⟨rfl, line, hline, rfl, hopens⟩ := hitem
    refine .inr (.inl ⟨_, rfl, .item ?_ rfl⟩)
    have harray : Around .child ({ cur with elements := n, obj := [] } :: rest)
        (b ++ '*' :: (line ++ (crlf ++ [].flatten))) :=
      .item (h.congr (by rfl)) hline hopens (hd rfl) .nil rfl hopens.pos
    rwa [List.flatten_nil, List.append_nil] at harray
  | object obj =>
    rcases h.move hitem with ⟨reply, hmove, hreply⟩ | ⟨cur', rest', hmove, htype, haround⟩
    · refine .inr (.inr ⟨reply, ?_, hreply⟩)
      rw [ReaderState.settle, hmove]
      rfl
    · refine .inr (.inl ⟨.reading cur' rest', ?_, .item haround htype⟩)
      rw [ReaderState.settle, hmove]
      rfl

theorem typed_cases (cur : ReadTask) (rest : List ReadTask) (byte : Char) :
    (∃ e, ReaderState.typed cur rest byte = .failed e ∧ Invalid rest.length [byte] e) ∨
      ∃ type : ReplyType, byte = type.byte ∧ ¬ (type = .array ∧ rest.length = 8) ∧
        ReaderState.typed cur rest byte = .reading { cur with type := some type } rest := by
  cases hbyte : ReplyType.ofByte byte with
  | none => exact .inl ⟨protocolByte byte, by rw [ReaderState.typed, hbyte], .type hbyte⟩
  | some type =>
    simp only [ReaderState.typed, hbyte]
    obtain rfl := ReplyType.eq_byte hbyte
    split_ifs with hdeep
    · refine .inl ⟨tooDeep, rfl, ?_⟩
      rw [hdeep.1, hdeep.2]
      exact .depth
    · exact .inr ⟨type, rfl, hdeep, rfl⟩

/-- **One step** within a reply. -/
theorem step (h : At s b) {t : Taken ReaderState RedisReply} (hstep : s.step c = some t) :
    (∃ e, t.emitted = none ∧ t.next = .failed e ∧ Broken (b ++ c.take t.count) e) ∨
      (t.emitted = none ∧ At t.next (b ++ c.take t.count)) ∨
        ∃ reply, t.emitted = some reply ∧ t.next = .idle ∧
          Encodes 0 reply (b ++ c.take t.count) := by
  cases h with
  | @item cur rest b h htype =>
    obtain _ | ⟨byte, c⟩ := c
    · cases hstep
    rw [ReaderState.step, htype] at hstep
    obtain rfl := Option.some.inj hstep
    rcases typed_cases cur rest byte with ⟨e, htyped, he⟩ | ⟨type, rfl, hdeep, htyped⟩
    · exact .inl ⟨e, rfl, htyped, _, b, _, rfl, h.unfinished, he⟩
    · have hle := h.length_le
      have hd : type = .array → rest.length < 8 := fun harray =>
        lt_of_le_of_ne hle fun height => hdeep ⟨harray, height⟩
      rw [htyped]
      exact .inr (.inl ⟨rfl, .typed (h.congr (by rfl)) rfl hd⟩)
  | @typed cur rest b type h htype hd =>
    have htyped := ReaderState.step_typed htype rest c
    rw [show replyMachine.step _ c = some t from hstep] at htyped
    obtain ⟨⟨n, item⟩, hitem, rfl⟩ := Option.map_eq_some_iff.1 htyped.symm
    have hsettle := At.settle h hd (takeItem_derived hd hitem)
    rw [List.append_assoc, List.singleton_append]
    rcases hsettle with ⟨e, hsettle, he⟩ | ⟨s', hsettle, hat⟩ | ⟨reply, hsettle, hreply⟩
    · exact .inl ⟨e, by rw [hsettle], by rw [hsettle], he⟩
    · exact .inr (.inl ⟨by rw [hsettle], by simpa only [hsettle] using hat⟩)
    · exact .inr (.inr ⟨reply, by rw [hsettle], by rw [hsettle], hreply⟩)

/-- **What is read is derived.** -/
theorem first (h : At s b) (hfirst : replyMachine.first s c = (some reply, s', c')) :
    s' = .idle ∧ ∃ t, c = t ++ c' ∧ Encodes 0 reply (b ++ t) := by
  induction hk : c.length using Nat.strongRecOn generalizing s b c with
  | _ k ih =>
    cases hstep : replyMachine.step s c with
    | none =>
      rw [StreamMachine.first_of_none hstep] at hfirst
      cases hfirst
    | some t =>
      have hlt := StreamMachine.length_drop_lt hstep
      rw [StreamMachine.first_of_some hstep] at hfirst
      rcases h.step hstep with ⟨e, hemit, hnext, -⟩ | ⟨hemit, hat⟩ | ⟨reply', hemit, hnext, hreply⟩
      · rw [hemit, hnext] at hfirst
        simp only [ReaderState.first_failed] at hfirst
        cases hfirst
      · rw [hemit] at hfirst
        obtain ⟨hs, u, hu, hreply⟩ := ih _ (hk ▸ hlt) hat hfirst rfl
        refine ⟨hs, c.take t.count ++ u, ?_, by rwa [← List.append_assoc]⟩
        rw [List.append_assoc, ← hu, List.take_append_drop]
      · rw [hemit] at hfirst
        simp only [Prod.mk.injEq, Option.some.injEq] at hfirst
        obtain ⟨rfl, rfl, rfl⟩ := hfirst
        exact ⟨hnext, c.take t.count, (List.take_append_drop _ _).symm, hreply⟩

/-- An error is that of a reply that goes wrong. -/
theorem broken (h : At s b) {e : ReaderError}
    (hfirst : replyMachine.first s c = (none, .failed e, c')) :
    ∃ t rest, c = t ++ rest ∧ Broken (b ++ t) e := by
  induction hk : c.length using Nat.strongRecOn generalizing s b c with
  | _ k ih =>
    cases hstep : replyMachine.step s c with
    | none =>
      rw [StreamMachine.first_of_none hstep] at hfirst
      cases hfirst
      cases h
    | some t =>
      have hlt := StreamMachine.length_drop_lt hstep
      rw [StreamMachine.first_of_some hstep] at hfirst
      rcases h.step hstep with ⟨e', hemit, hnext, he⟩ | ⟨hemit, hat⟩ | ⟨reply, hemit, -, -⟩
      · rw [hemit, hnext] at hfirst
        simp only [ReaderState.first_failed] at hfirst
        cases hfirst
        exact ⟨_, _, (List.take_append_drop t.count c).symm, he⟩
      · rw [hemit] at hfirst
        obtain ⟨u, rest, hu, he⟩ := ih _ (hk ▸ hlt) hat hfirst rfl
        refine ⟨c.take t.count ++ u, rest, ?_, by rwa [← List.append_assoc]⟩
        rw [List.append_assoc, ← hu, List.take_append_drop]
      · rw [hemit] at hfirst
        cases hfirst

end At

/-! ### The replies of a stream -/

theorem encodes_of_run {rs : List RedisReply} {b : Str}
    (h : rs <+: (replyMachine.run .idle b).1) :
    ∃ bs rest, b = bs.flatten ++ rest ∧ List.Forall₂ (Encodes 0) rs bs := by
  induction rs generalizing b with
  | nil => exact ⟨[], b, rfl, .nil⟩
  | cons r rs ih =>
    rw [StreamMachine.run_eq_first] at h
    cases hfirst : replyMachine.first .idle b with
    | mk o q =>
      obtain ⟨s', b'⟩ := q
      rw [hfirst] at h
      cases o with
      | none => exact absurd (List.prefix_nil.1 h) (List.cons_ne_nil r rs)
      | some reply =>
        obtain ⟨rfl, hrest⟩ := List.cons_prefix_cons.1 h
        obtain ⟨rfl, t, rfl, hreply⟩ := at_idle.first hfirst
        obtain ⟨bs, rest, rfl, hbs⟩ := ih hrest
        exact ⟨t :: bs, rest, by rw [List.flatten_cons, List.append_assoc], .cons hreply hbs⟩

theorem broken_of_run {rs : List RedisReply} {b c : Str} {e : ReaderError}
    (h : replyMachine.run .idle b = (rs, .failed e, c)) :
    ∃ bs t rest, b = bs.flatten ++ (t ++ rest) ∧ List.Forall₂ (Encodes 0) rs bs ∧ Broken t e := by
  induction rs generalizing b with
  | nil =>
    rw [StreamMachine.run_eq_first] at h
    cases hfirst : replyMachine.first .idle b with
    | mk o q =>
      obtain ⟨s', b'⟩ := q
      rw [hfirst] at h
      cases o with
      | some reply => cases h
      | none =>
        cases h
        obtain ⟨t, rest, rfl, he⟩ := at_idle.broken hfirst
        exact ⟨[], t, rest, rfl, .nil, he⟩
  | cons r rs ih =>
    rw [StreamMachine.run_eq_first] at h
    cases hfirst : replyMachine.first .idle b with
    | mk o q =>
      obtain ⟨s', b'⟩ := q
      rw [hfirst] at h
      cases o with
      | none => cases h
      | some reply =>
        obtain ⟨rfl, t, rfl, hreply⟩ := at_idle.first hfirst
        simp only [Prod.mk.injEq, List.cons.injEq] at h
        obtain ⟨⟨rfl, hrs⟩, hrest⟩ := h
        obtain ⟨bs, t', rest, rfl, hbs, he⟩ := ih (Prod.ext hrs hrest)
        exact ⟨t :: bs, t', rest, by rw [List.flatten_cons, List.append_assoc],
          .cons hreply hbs, he⟩

namespace RedisReader

/-- **The replies of a stream.** A list of replies is what a new reader returns first if and only if
the stream starts with texts of these replies, however it is cut into pieces. -/
theorem prefix_replies_iff {pieces : List Str} (hfits : create.Fits pieces)
    (rs : List RedisReply) :
    rs <+: (repliesOf pieces create).1 ↔
      ∃ bs rest, pieces.flatten = bs.flatten ++ rest ∧ List.Forall₂ (Encodes 0) rs bs := by
  rw [(repliesOf_create hfits).1]
  refine ⟨encodes_of_run, ?_⟩
  rintro ⟨bs, rest, hb, hbs⟩
  rw [hb, (takes_of_encodes hbs).run_append]
  exact List.prefix_append _ _

/-- Two arrays in two pieces. Any two bytes end a string, a number that is not one is -1, and a
count below -1 makes an array without items. -/
theorem prefix_replies_array :
    [.array [.string ['o', 'k'], .nil], .hollow (-2)] <+:
      (repliesOf ["*2\r\n$2\r".toList, "\nokXY$x\r\n*-2\r\n+".toList] create).1 := by
  have hhollow : Encodes 0 (.hollow (-2)) ('*' :: (['-', '2'] ++ crlf)) :=
    .emptyArray (by decide) (by decide : number ['-', '2'] = some (-2)) (by decide) (by decide)
      (by decide)
  refine (prefix_replies_iff (fits_create (by decide)) _).2
    ⟨["*2\r\n$2\r\nokXY$x\r\n".toList, "*-2\r\n".toList], ['+'], by decide,
      .cons ?_ (.cons hhollow .nil)⟩
  have hline : ∀ c, c ≠ '\r' → IsLine [c] := fun c hc => by simp [IsLine, findCrlf, hc]
  have hstring : Encodes 1 (.string ['o', 'k']) "$2\r\nokXY".toList :=
    .string (hline '2' (by decide)) (by decide) rfl
  have hnil : Encodes 1 .nil "$x\r\n".toList :=
    .nullString (hline 'x' (by decide)) (by decide : number ['x'] = some (-1)) (by decide)
  have harray : Encodes 0 (.array [.string ['o', 'k'], .nil])
      ('*' :: (['2'] ++ (crlf ++ ["$2\r\nokXY".toList, "$x\r\n".toList].flatten))) :=
    .array_of_number (hline '2' (by decide)) (by decide) (by decide) (by decide)
      (.cons hstring (.cons hnil .nil))
  exact harray

/-- **The errors of a stream.** A new reader returns some replies and stops with an error if and
only if the stream consists of texts of these replies, behind which a reply goes wrong. -/
theorem err_eq_some_iff {pieces : List Str} (hfits : create.Fits pieces) (rs : List RedisReply)
    (e : ReaderError) :
    (repliesOf pieces create).1 = rs ∧ (repliesOf pieces create).2.err = some e ↔
      ∃ bs b rest, pieces.flatten = bs.flatten ++ (b ++ rest) ∧
        List.Forall₂ (Encodes 0) rs bs ∧ Broken b e := by
  obtain ⟨hreplies, hshows⟩ := repliesOf_create hfits
  rw [hreplies, hshows.err_eq]
  constructor
  · rintro ⟨hrs, herr⟩
    cases hrun : replyMachine.run .idle pieces.flatten with
    | mk rs' q =>
      obtain ⟨s, c⟩ := q
      rw [hrun] at hrs herr
      obtain rfl : rs' = rs := hrs
      cases s with
      | reading => cases herr
      | failed e' =>
        obtain rfl : e' = e := Option.some.inj herr
        exact broken_of_run hrun
  · rintro ⟨bs, b, rest, hb, hbs, he⟩
    rw [hb, (takes_of_encodes hbs).run_append, he.takes.run_append, ReaderState.run_failed]
    exact ⟨List.append_nil _, rfl⟩

/-- A reply, and an array that is one item deep when a byte is no type byte. -/
theorem err_eq_byte :
    (repliesOf ["+\r\n*2\r".toList, "\n:7\r\n?".toList] create).1 = [.status []] ∧
      (repliesOf ["+\r\n*2\r".toList, "\n:7\r\n?".toList] create).2.err =
        some (protocolByte '?') := by
  refine (err_eq_some_iff (fits_create (by decide)) _ _).2
    ⟨["+\r\n".toList], "*2\r\n:7\r\n?".toList, [], by decide, .cons ?_ .nil,
      1, "*2\r\n:7\r\n".toList, ['?'], rfl, ?_, .type rfl⟩
  · have hstatus : Encodes 0 (.status []) ('+' :: ([] ++ crlf)) := .status rfl
    exact hstatus
  · have hinteger : Encodes 1 (.integer 7) (':' :: (['7'] ++ crlf)) :=
      .integer (by decide) (by decide)
    have hfront : Unfinished 1
        ([] ++ '*' :: (['2'] ++ (crlf ++ [':' :: (['7'] ++ crlf)].flatten))) :=
      .item .start (by decide) (by decide)
        (opens_of_number (by decide : number ['2'] = some 2) (by decide) (by decide))
        (.cons hinteger .nil) (by decide)
    exact hfront

end RedisReader

/-! ### Streams that break off -/

/-- How many of the texts are there as a whole after `n` bytes. -/
def complete : List Str → ℕ → ℕ
  | [], _ => 0
  | b :: bs, n => if b.length ≤ n then complete bs (n - b.length) + 1 else 0

theorem Encodes.first {obj : RedisReply} {b : Str} (h : Encodes 0 obj b) :
    replyMachine.first .idle b = (some obj, .idle, []) := by
  obtain ⟨front, last, mid, rfl, htakes, hstep⟩ :=
    h.creates (by rfl : ReadTask.root.type = none) (by rfl : ([] : List ReadTask).length = 0)
  rw [ReaderState.idle, htakes.first_append, StreamMachine.first_of_some hstep, List.drop_length]
  rfl

theorem Encodes.first_front {obj : RedisReply} {b t : Str} (h : Encodes 0 obj (b ++ t))
    (ht : t ≠ []) : ∃ s b', replyMachine.first .idle b = (none, s, b') ∧ s.err = none := by
  cases hfirst : replyMachine.first .idle b with
  | mk o q =>
    obtain ⟨s, b'⟩ := q
    cases o with
    | some reply =>
      have hwhole := StreamMachine.first_append hfirst t
      rw [h.first, Prod.mk.injEq, Prod.mk.injEq] at hwhole
      exact absurd (List.append_eq_nil_iff.1 hwhole.2.2.symm).2 ht
    | none =>
      refine ⟨s, b', rfl, ?_⟩
      -- an error would still be there with the last byte
      cases s with
      | reading => rfl
      | failed e =>
        have hwhole := StreamMachine.first_append_of_none hfirst t
        rw [h.first, ReaderState.first_failed] at hwhole
        cases hwhole

theorem run_eq_take {rs : List RedisReply} {bs : List Str} (h : List.Forall₂ (Encodes 0) rs bs)
    {b missing : Str} (hb : bs.flatten = b ++ missing) :
    (replyMachine.run .idle b).1 = rs.take (complete bs b.length) := by
  induction h generalizing b with
  | nil =>
    obtain ⟨rfl, -⟩ := List.append_eq_nil_iff.1 hb.symm
    rw [StreamMachine.run_of_none StreamMachine.step_nil]
    rfl
  | @cons r t rs bs hr hrs ih =>
    rw [List.flatten_cons] at hb
    rw [complete]
    split_ifs with hle
    · obtain ⟨b', rfl⟩ : t <+: b :=
        List.prefix_of_prefix_length_le (List.prefix_append t _) (hb ▸ List.prefix_append b _) hle
      rw [List.append_assoc, List.append_cancel_left_eq] at hb
      rw [hr.takes.run_append, ih hb, List.length_append, Nat.add_sub_cancel_left]
      rfl
    · obtain ⟨q, rfl⟩ : b <+: t :=
        List.prefix_of_prefix_length_le (hb ▸ List.prefix_append b _) (List.prefix_append t _)
          (by omega)
      have hq : q ≠ [] := by
        rintro rfl
        simp at hle
      obtain ⟨s, b', hfirst, -⟩ := hr.first_front hq
      rw [StreamMachine.run_eq_first, hfirst]
      rfl

namespace RedisReader

/-- **A stream that breaks off.** As long as only the first bytes of the texts of some replies have
arrived, the reader has returned those whose texts are there as a whole, and it has no error. -/
theorem replies_eq_take {pieces : List Str} (hfits : create.Fits pieces) {rs : List RedisReply}
    {bs : List Str} (hbs : List.Forall₂ (Encodes 0) rs bs) {missing : Str}
    (h : bs.flatten = pieces.flatten ++ missing) :
    (repliesOf pieces create).1 = rs.take (complete bs pieces.flatten.length) ∧
      (repliesOf pieces create).2.err = none := by
  obtain ⟨hreplies, hshows⟩ := repliesOf_create hfits
  refine ⟨hreplies.trans (run_eq_take hbs h), ?_⟩
  -- an error would still be there after the rest
  have hwhole := congrArg (fun p => p.2.1) ((takes_of_encodes hbs).run_append [])
  rw [List.append_nil, h, StreamMachine.run_append] at hwhole
  rw [hshows.err_eq]
  cases hs : (replyMachine.run .idle pieces.flatten).2.1 with
  | reading => rfl
  | failed e =>
    simp only [hs, ReaderState.run_failed, StreamMachine.run_of_none StreamMachine.step_nil]
      at hwhole
    cases hwhole

/-- The second of two replies is not complete yet. -/
theorem replies_eq_take_status :
    (repliesOf ["+OK\r".toList, "\n$2\r\no".toList] create).1 = [.status ['O', 'K']] ∧
      (repliesOf ["+OK\r".toList, "\n$2\r\no".toList] create).2.err = none := by
  have hstatus : Encodes 0 (.status ['O', 'K']) ('+' :: (['O', 'K'] ++ crlf)) := .status (by decide)
  have hstring : Encodes 0 (.string ['o', 'k']) "$2\r\nok\r\n".toList :=
    .string (by decide : IsLine ['2']) (by decide) (rfl : "\r\n".toList.length = 2)
  exact replies_eq_take (fits_create (by decide)) (.cons hstatus (.cons hstring .nil))
    (by decide : _ = _ ++ "k\r\n".toList)

end RedisReader

end YcsbC
