import Mathlib.Algebra.Order.Group.Nat
import YcsbC.Redis.Dict

/-!
# Runs of the operations on a hash table

Any operations on a new table of hiredis answer as those on a map do, whatever the hash function is,
and as long as an `int` and an `unsigned long` hold what the code keeps in them: the size of the
table is a power of two that is bounded by the number of the operations.

An iteration visits every entry once, in the order of the chains, and its user may delete the
entries that it returns.

## Main definitions

* `DictOp.run`, `DictOp.denote`: an operation on a table and on a map.
* `Dict.Sized`: how large a table is.
* `sweep`: an iteration whose user deletes entries.

## Main results

* `dictRun_eq`: the operations on a new table are those on a map.
* `sweep_dictRun`: the iteration.
-/

namespace YcsbC

variable {K V : Type}

/-- An operation. -/
inductive DictOp (K V : Type)
  | add (key : K) (val : V)
  | replace (key : K) (val : V)
  | delete (key : K)
  | find (key : K)
  deriving DecidableEq

/-- What an operation returns. -/
inductive DictAnswer (V : Type)
  | code (ok : Bool)
  | found (val : Option V)
  deriving DecidableEq

section Definitions

variable [DecidableEq K] (hash : K → UInt32)

/-- An operation on a table. -/
def DictOp.run (d : Dict K V) : DictOp K V → DictAnswer V × Dict K V
  | add key val => let (ok, d) := dictAdd hash d key val; (.code ok, d)
  | replace key val => let (ok, d) := dictReplace hash d key val; (.code ok, d)
  | delete key => let (ok, d) := dictDelete hash d key; (.code ok, d)
  | find key => (.found ((dictFind hash d key).map Prod.snd), d)

/-- An operation on a map. -/
def DictOp.denote (m : K → Option V) : DictOp K V → DictAnswer V × (K → Option V)
  | add key val =>
    if (m key).isSome then (.code false, m) else (.code true, Function.update m key (some val))
  | replace key val => (.code (m key).isNone, Function.update m key (some val))
  | delete key => (.code (m key).isSome, Function.update m key none)
  | find key => (.found (m key), m)

/-- A run on a table. -/
def dictRun : Dict K V → List (DictOp K V) → List (DictAnswer V) × Dict K V
  | d, [] => ([], d)
  | d, op :: ops =>
    let (answer, d) := op.run hash d
    let (answers, d) := dictRun d ops
    (answer :: answers, d)

/-- A run on a map. -/
def mapRun : (K → Option V) → List (DictOp K V) → List (DictAnswer V) × (K → Option V)
  | m, [] => ([], m)
  | m, op :: ops =>
    let (answer, m) := op.denote m
    let (answers, m) := mapRun m ops
    (answer :: answers, m)

/-- An iteration whose user deletes the returned entries that are not kept, of at most `n` calls of
`dictNext`: the entries it visits, and the table it leaves. -/
def sweep (keep : K × V → Bool) :
    ℕ → Dict K V → DictIterator K V → List (K × V) × Dict K V
  | 0, d, _ => ([], d)
  | n + 1, d, it =>
    match dictNext d it with
    | (none, _) => ([], d)
    | (some e, it) =>
      let (visited, d) := sweep keep n (if keep e then d else (dictDelete hash d e.1).2) it
      (e :: visited, d)

end Definitions

/-! ### A table stands for a map -/

variable {hash : K → UInt32} {d d' : Dict K V} {m : K → Option V} {key : K} {val : V}

theorem Denotes.run [DecidableEq K] (h : Denotes d.entries m) (hwf : d.WF hash) (op : DictOp K V) :
    (op.run hash d).1 = (op.denote m).1 ∧ (op.run hash d).2.WF hash ∧
      Denotes (op.run hash d).2.entries (op.denote m).2 := by
  cases op with
  | add key val =>
    by_cases hmem : ∃ old, (key, old) ∈ d.entries
    · obtain ⟨d', hadd, hwf', -, hperm⟩ := hwf.dictAdd_of_mem hmem val
      have hsome := h.isSome_iff.2 hmem
      simp only [DictOp.run, DictOp.denote, hadd, hsome, if_true]
      exact ⟨trivial, hwf', h.perm hperm⟩
    · obtain ⟨d', hadd, hwf', hperm⟩ := hwf.dictAdd_of_notMem hmem val
      have hnone : m key = none := by simpa using mt h.isSome_iff.1 hmem
      simp only [DictOp.run, DictOp.denote, hadd, hnone, Option.isSome_none]
      exact ⟨rfl, hwf', h.link hnone hperm⟩
  | replace key val =>
    by_cases hmem : ∃ old, (key, old) ∈ d.entries
    · obtain ⟨d', old, rest, hreplace, hwf', hperm, hperm'⟩ := hwf.dictReplace_of_mem hmem val
      have hsome := (h key old).2 (hperm.mem_iff.2 List.mem_cons_self)
      have hlink := (h.unlink hwf.nodup hperm).link (Function.update_self ..) hperm'
      simp only [DictOp.run, DictOp.denote, hreplace, hsome, Option.isNone_some]
      rw [Function.update_idem] at hlink
      exact ⟨trivial, hwf', hlink⟩
    · obtain ⟨d', hreplace, hwf', hperm⟩ := hwf.dictReplace_of_notMem hmem val
      have hnone : m key = none := by simpa using mt h.isSome_iff.1 hmem
      simp only [DictOp.run, DictOp.denote, hreplace, hnone, Option.isNone_none]
      exact ⟨trivial, hwf', h.link hnone hperm⟩
  | delete key =>
    by_cases hmem : ∃ old, (key, old) ∈ d.entries
    · obtain ⟨old, hold⟩ := hmem
      obtain ⟨d', hdelete, hwf', hperm, -⟩ := hwf.dictDelete_of_mem hold
      have hsome := (h key old).2 hold
      simp only [DictOp.run, DictOp.denote, hdelete, hsome, Option.isSome_some]
      exact ⟨trivial, hwf', h.unlink hwf.nodup hperm⟩
    · have hnone : m key = none := by simpa using mt h.isSome_iff.1 hmem
      simp only [DictOp.run, DictOp.denote, hwf.dictDelete_of_notMem hmem, hnone,
        Option.isSome_none]
      rw [← hnone, Function.update_eq_self]
      exact ⟨trivial, hwf, h⟩
  | find key =>
    refine ⟨?_, hwf, h⟩
    simp only [DictOp.run, DictOp.denote]
    congr 1
    cases hfind : dictFind hash d key with
    | none =>
      symm
      rw [Option.map_none, Option.eq_none_iff_forall_ne_some]
      intro val hval
      have := hwf.dictFind_eq_some_iff.2 ⟨(h key val).1 hval, rfl⟩
      rw [hfind] at this
      cases this
    | some e =>
      obtain ⟨he, rfl⟩ := hwf.dictFind_eq_some_iff.1 hfind
      exact ((h _ _).2 he).symm

/-! ### The size of a table -/

theorem nextPowerLoop_pow {k n j : ℕ} (hjk : j ≤ k) (hn : k ≤ j + n) :
    nextPowerLoop (2 ^ k) n (2 ^ j) = 2 ^ k := by
  induction n generalizing j with
  | zero =>
    obtain rfl : j = k := le_antisymm hjk hn
    rfl
  | succ n ih =>
    rw [nextPowerLoop]
    split_ifs with hle
    · exact le_antisymm (Nat.pow_le_pow_right Nat.two_pos hjk) hle
    · have hlt : j < k := lt_of_le_of_ne hjk fun heq => hle (heq ▸ le_refl _)
      rw [← pow_succ]
      exact ih hlt (by omega)

theorem dictNextPower_pow {k : ℕ} (hk : k < 61) : dictNextPower (2 ^ (k + 2)) = 2 ^ (k + 2) := by
  have hlt : 2 ^ (k + 2) < 2 ^ 63 - 1 := by
    have hle : 2 ^ (k + 2) ≤ 2 ^ 63 / 2 :=
      le_trans (Nat.pow_le_pow_right Nat.two_pos (by omega : k + 2 ≤ 62)) (by decide)
    exact lt_of_le_of_lt hle (by decide)
  rw [dictNextPower, if_neg (not_le.2 hlt)]
  exact nextPowerLoop_pow (j := 2) (by omega) (le_trans Nat.lt_two_pow_self.le (Nat.le_add_left ..))

/-- After `n` operations the table has room for its entries, and its size is a power of two. -/
structure Dict.Sized (n : ℕ) (d : Dict K V) : Prop where
  used_le_size : d.used ≤ d.size
  used_le : d.used ≤ n
  size_eq : d.size = 0 ∨ ∃ k, d.size = 2 ^ (k + 2)
  size_le : d.size ≤ max 4 (2 * (n - 1))

namespace Dict.Sized

variable {n n' : ℕ}

theorem of_size_eq (h : d.Sized n) (hle : n ≤ n') (hsize : d'.size = d.size)
    (hroom : d'.used ≤ d.size) (hused : d'.used ≤ n') : d'.Sized n' where
  used_le_size := hsize ▸ hroom
  used_le := hused
  size_eq := hsize ▸ h.size_eq
  size_le := hsize ▸
    h.size_le.trans (max_le_max_left 4 (Nat.mul_le_mul_left 2 (Nat.sub_le_sub_right hle 1)))

theorem lt_of_size_eq (h : d.Sized n) (hn : n ≤ 2 ^ 30) {k : ℕ} (hk : d.size = 2 ^ (k + 2)) :
    k < 29 := by
  by_contra hle
  have hpow : 2 ^ (29 + 2) ≤ 2 ^ (k + 2) := Nat.pow_le_pow_right Nat.two_pos (by omega)
  have hsize := h.size_le
  rw [hk] at hsize
  omega

/-- The table has room for another entry after `_dictExpandIfNeeded`. -/
theorem dictExpandIfNeeded (h : d.Sized n) (hwf : d.WF hash) (hn : n ≤ 2 ^ 30) :
    ∃ ok d', dictExpandIfNeeded hash d = (ok, d') ∧ d'.Sized (n + 1) ∧ d'.used < d'.size ∧
      d'.used ≤ n := by
  have hexpand : ∀ {k}, d.used < 2 ^ (k + 2) → k < 61 → 2 ^ (k + 2) ≤ max 4 (2 * n) →
      ∃ ok d', dictExpand hash d (2 ^ (k + 2)) = (ok, d') ∧ d'.Sized (n + 1) ∧
        d'.used < d'.size ∧ d'.used ≤ n := by
    intro k hlt hk hle
    obtain ⟨-, -, hsize, -⟩ := hwf.dictExpand hlt.le
    rw [dictNextPower_pow hk] at hsize
    have hused : (dictExpand hash d (2 ^ (k + 2))).2.used = d.used := by
      rw [dictExpand, if_neg (not_lt.2 hlt.le)]
    obtain ⟨ok, d', hout⟩ : ∃ ok d', dictExpand hash d (2 ^ (k + 2)) = (ok, d') := ⟨_, _, rfl⟩
    rw [hout] at hsize hused ⊢
    refine ⟨ok, d', rfl, ?_⟩
    rw [← hused, ← hsize] at hlt
    have hle' : d'.used ≤ n := hused.trans_le h.used_le
    exact ⟨⟨hlt.le, Nat.le_succ_of_le hle', .inr ⟨k, hsize⟩, hsize ▸ hle⟩, hlt, hle'⟩
  rw [YcsbC.dictExpandIfNeeded]
  split_ifs with hzero hfull
  · have hused : d.used = 0 := Nat.le_zero.1 (hzero ▸ h.used_le_size)
    exact hexpand (k := 0) (by omega) (by omega) (le_max_left ..)
  · obtain hzero' | ⟨k, hk⟩ := h.size_eq
    · exact absurd hzero' hzero
    · have hlt := h.lt_of_size_eq hn hk
      have hdouble : d.size * 2 = 2 ^ (k + 1 + 2) := by rw [hk, ← pow_succ]
      have hle := h.used_le
      rw [hdouble]
      exact hexpand (by omega) (by omega) (by omega)
  · exact ⟨true, d, rfl, h.of_size_eq (Nat.le_succ n) rfl h.used_le_size
      (Nat.le_succ_of_le h.used_le), lt_of_le_of_ne h.used_le_size hfull, h.used_le⟩

variable [DecidableEq K]

theorem dictAdd (h : d.Sized n) (hwf : d.WF hash) (hn : n ≤ 2 ^ 30) (key : K) (val : V) :
    (dictAdd hash d key val).2.Sized (n + 1) := by
  obtain ⟨ok, d', hexpand, hs, hlt, hle⟩ := h.dictExpandIfNeeded hwf hn
  rw [YcsbC.dictAdd, dictKeyIndex, hexpand]
  cases ok with
  | false => exact hs
  | true =>
    dsimp only
    split_ifs
    · exact hs
    · exact hs.of_size_eq (le_refl _) (List.length_modify ..) hlt (Nat.succ_le_succ hle)

theorem dictReplace (h : d.Sized n) (hwf : d.WF hash) (hn : n ≤ 2 ^ 30) (key : K) (val : V) :
    (dictReplace hash d key val).2.Sized (n + 1) := by
  have hadd := h.dictAdd hwf hn key val
  rw [YcsbC.dictReplace]
  generalize YcsbC.dictAdd hash d key val = out at hadd
  obtain ⟨_ | _, d'⟩ := out
  · exact hadd.of_size_eq (le_refl _) (List.length_modify ..) hadd.used_le_size hadd.used_le
  · exact hadd

theorem dictDelete (h : d.Sized n) (key : K) : (dictDelete hash d key).2.Sized (n + 1) := by
  have hused := Nat.le_succ_of_le h.used_le
  rw [YcsbC.dictDelete]
  split_ifs
  · exact h.of_size_eq (Nat.le_succ n) rfl h.used_le_size hused
  · exact h.of_size_eq (Nat.le_succ n) (List.length_modify ..)
      ((Nat.sub_le ..).trans h.used_le_size) ((Nat.sub_le ..).trans hused)
  · exact h.of_size_eq (Nat.le_succ n) rfl h.used_le_size hused

theorem run (h : d.Sized n) (hwf : d.WF hash) (hn : n ≤ 2 ^ 30) (op : DictOp K V) :
    (op.run hash d).2.Sized (n + 1) := by
  cases op with
  | add key val => exact h.dictAdd hwf hn key val
  | replace key val => exact h.dictReplace hwf hn key val
  | delete key => exact h.dictDelete key
  | find key =>
    exact h.of_size_eq (Nat.le_succ n) rfl h.used_le_size (Nat.le_succ_of_le h.used_le)

end Dict.Sized

/-! ### Runs -/

section Runs

variable [DecidableEq K]

/-- The run of a table is that of its map. -/
theorem Denotes.dictRun (ops : List (DictOp K V)) {n : ℕ} (h : Denotes d.entries m)
    (hwf : d.WF hash) (hs : d.Sized n) (hn : n + ops.length ≤ 2 ^ 30) :
    (dictRun hash d ops).1 = (mapRun m ops).1 ∧ (YcsbC.dictRun hash d ops).2.WF hash ∧
      Denotes (YcsbC.dictRun hash d ops).2.entries (mapRun m ops).2 ∧
      (YcsbC.dictRun hash d ops).2.Sized (n + ops.length) := by
  induction ops generalizing d m n with
  | nil => exact ⟨rfl, hwf, h, hs⟩
  | cons op ops ih =>
    rw [List.length_cons] at hn
    obtain ⟨hanswer, hwf', hdenotes⟩ := h.run hwf op
    obtain ⟨hanswers, hwf'', hdenotes', hsized⟩ :=
      ih hdenotes hwf' (hs.run hwf (by omega) op) (by omega)
    rw [show n + 1 + ops.length = n + (op :: ops).length by rw [List.length_cons]; omega] at hsized
    exact ⟨List.cons_eq_cons.2 ⟨hanswer, hanswers⟩, hwf'', hdenotes', hsized⟩

theorem dictRun_dictCreate (hash : K → UInt32) {ops : List (DictOp K V)}
    (h : ops.length ≤ 2 ^ 30) :
    (dictRun hash dictCreate ops).1 = (mapRun (fun _ => none) ops).1 ∧
      (dictRun hash dictCreate ops).2.WF hash ∧
      Denotes (dictRun hash dictCreate ops).2.entries (mapRun (fun _ => none) ops).2 ∧
      (dictRun hash dictCreate ops).2.Sized ops.length := by
  have hnil : Denotes (dictCreate : Dict K V).entries fun _ => none := .nil
  have hsized : (dictCreate : Dict K V).Sized 0 := ⟨le_refl _, le_refl _, .inl rfl, Nat.zero_le _⟩
  have hrun := hnil.dictRun ops (Dict.wf_dictCreate : Dict.WF hash _) hsized (by rwa [Nat.zero_add])
  rwa [Nat.zero_add] at hrun

/-- At most 2^30 operations on a new table answer as those on a map, for any hash function. The
table counts its entries, has room for them, and its size is zero or a power of two that an `int`
holds. -/
theorem dictRun_eq (hash : K → UInt32) {ops : List (DictOp K V)} (h : ops.length ≤ 2 ^ 30) :
    (dictRun hash dictCreate ops).1 = (mapRun (fun _ => none) ops).1 ∧
      let d := (dictRun hash dictCreate ops).2
      d.used = d.entries.length ∧ d.used ≤ d.size ∧
        (d.size = 0 ∨ ∃ k, d.size = 2 ^ (k + 2) ∧ d.size < 2 ^ 31) := by
  obtain ⟨hanswers, hwf, -, hs⟩ := dictRun_dictCreate hash h
  refine ⟨hanswers, hwf.used, hs.used_le_size, hs.size_eq.imp_right ?_⟩
  rintro ⟨k, hk⟩
  have hlt := hs.lt_of_size_eq h hk
  refine ⟨k, hk, ?_⟩
  rw [hk]
  exact Nat.pow_lt_pow_right (by decide) (by omega)

/-- Seven operations with colliding hashes. -/
theorem dictRun_eq_seven :
    (dictRun (fun _ => 3) dictCreate [.add 1 'a', .add 2 'b', .add 1 'c', .replace 2 'd', .find 2,
      .delete 1, .find 1]).1 =
      [.code true, .code true, .code false, .code false, .found (some 'd'), .code true,
        .found none] :=
  (dictRun_eq (fun _ : ℕ => 3) (by decide)).1

end Runs

/-! ### Iterations -/

/-- The entries that an iteration has yet to visit. -/
def DictIterator.pending (it : DictIterator K V) (d : Dict K V) : List (K × V) :=
  it.nextEntry ++ (d.table.drop (it.index + 1).toNat).flatten

/-- The chain of an iteration goes on in the table. -/
structure DictIterator.Ongoing (it : DictIterator K V) (d : Dict K V) : Prop where
  index : -1 ≤ it.index
  nextEntry : it.nextEntry.Sublist (d.table.getD it.index.toNat [])
  entry : it.entry = none → it.nextEntry = []
  nonneg : it.entry ≠ none → 0 ≤ it.index

/-- The iteration has returned an entry, which is in the table. -/
structure DictIterator.Returned (it : DictIterator K V) (d : Dict K V) (e : K × V) : Prop where
  entry : it.entry = some e
  index : 0 ≤ it.index
  chain : (e :: it.nextEntry).Sublist (d.table.getD it.index.toNat [])

/-- What `dictNext` returns when some entries are pending. -/
def Yields (d : Dict K V) (out : Option (K × V) × DictIterator K V) : List (K × V) → Prop
  | [] => out.1 = none
  | e :: rest => out.1 = some e ∧ out.2.pending d = rest ∧ out.2.Returned d e

/-- The loop of `dictNext` at the beginning of a chain. -/
theorem yields_dictNextLoop {n i : ℕ} (hn : d.size < i + n) :
    Yields d (dictNextLoop d n ⟨(i : ℤ) - 1, none, []⟩) (d.table.drop i).flatten := by
  induction n generalizing i with
  | zero =>
    have hdrop : d.table.drop i = [] := List.drop_eq_nil_of_le (show d.size ≤ i by omega)
    rw [hdrop]
    exact rfl
  | succ n ih =>
    have hindex : (i : ℤ) - 1 + 1 = i := by omega
    rw [dictNextLoop, hindex, Int.toNat_natCast]
    split_ifs with hle
    · have hdrop : d.table.drop i = [] :=
        List.drop_eq_nil_of_le (show d.size ≤ i from Int.ofNat_le.1 hle)
      rw [hdrop]
      exact rfl
    · have hlt : i < d.table.length := by
        rw [Dict.size] at hle
        omega
      have hgetD : d.table.getD i [] = d.table[i] := by
        rw [List.getD_eq_getElem?_getD, List.getElem?_eq_getElem hlt]
        rfl
      rw [List.drop_eq_getElem_cons hlt, List.flatten_cons, hgetD]
      cases hchain : d.table[i] with
      | nil =>
        have hnext : (i : ℤ) = ((i + 1 : ℕ) : ℤ) - 1 := by omega
        rw [List.nil_append]
        dsimp only
        rw [hnext]
        exact ih (by omega)
      | cons e rest =>
        refine ⟨rfl, ?_, rfl, Int.natCast_nonneg i, ?_⟩
        · show rest ++ (d.table.drop ((i : ℤ) + 1).toNat).flatten = _
          rw [show ((i : ℤ) + 1).toNat = i + 1 by omega]
          rfl
        · show (e :: rest).Sublist (d.table.getD (i : ℤ).toNat [])
          rw [Int.toNat_natCast, hgetD, hchain]

/-- `dictNext` returns the first pending entry. -/
theorem DictIterator.Ongoing.yields {it : DictIterator K V} (h : it.Ongoing d) :
    Yields d (dictNext d it) (it.pending d) := by
  obtain ⟨index, entry, nextEntry⟩ := it
  have hindex : -1 ≤ index := h.index
  have hbegin : ∀ n, d.size < (index + 1).toNat + n →
      Yields d (dictNextLoop d n ⟨index, none, []⟩) (d.table.drop (index + 1).toNat).flatten := by
    intro n hn
    have heq : index = ((index + 1).toNat : ℤ) - 1 := by omega
    have hyields := yields_dictNextLoop hn
    rwa [← heq] at hyields
  rw [dictNext, pending]
  dsimp only
  cases entry with
  | none =>
    obtain rfl : nextEntry = [] := h.entry rfl
    exact hbegin _ (by omega)
  | some e =>
    cases nextEntry with
    | nil => exact hbegin _ (by omega)
    | cons e' rest =>
      exact ⟨rfl, rfl, rfl, h.nonneg (Option.some_ne_none e), h.nextEntry⟩

namespace DictIterator.Returned

variable {it : DictIterator K V} {e : K × V}

theorem exists_chain (h : it.Returned d e) :
    ∃ chain, d.table[it.index.toNat]? = some chain ∧ (e :: it.nextEntry).Sublist chain := by
  have hchain := h.chain
  rw [List.getD_eq_getElem?_getD] at hchain
  cases htable : d.table[it.index.toNat]? with
  | none =>
    rw [htable] at hchain
    cases hchain
  | some chain =>
    rw [htable] at hchain
    exact ⟨chain, rfl, hchain⟩

theorem mem_entries (h : it.Returned d e) : e ∈ d.entries := by
  obtain ⟨chain, htable, hchain⟩ := h.exists_chain
  exact List.mem_flatten.2 ⟨chain, List.mem_of_getElem? htable,
    hchain.subset List.mem_cons_self⟩

theorem ongoing (h : it.Returned d e) : it.Ongoing d where
  index := by have := h.index; omega
  nextEntry := (List.sublist_cons_self e _).trans h.chain
  entry hnone := by rw [h.entry] at hnone; cases hnone
  nonneg _ := h.index

/-- The user deletes the entry. -/
theorem dictDelete [DecidableEq K] (h : it.Returned d e) (hwf : d.WF hash) :
    (dictDelete hash d e.1).2.WF hash ∧ it.Ongoing (YcsbC.dictDelete hash d e.1).2 ∧
      it.pending (YcsbC.dictDelete hash d e.1).2 = it.pending d ∧
      d.entries.Perm (e :: (YcsbC.dictDelete hash d e.1).2.entries) := by
  have hmem : (e.1, e.2) ∈ d.entries := h.mem_entries
  obtain ⟨d', hdelete, hwf', hperm, htable'⟩ := hwf.dictDelete_of_mem hmem
  obtain ⟨chain, htable, hchain⟩ := h.exists_chain
  have hindex : dictIndex hash d.size e.1 = it.index.toNat :=
    hwf.slots _ chain htable e (hchain.subset List.mem_cons_self)
  rw [hindex] at htable'
  have hrest : it.nextEntry.Sublist (chain.eraseP fun e' => e'.1 = e.1) := by
    have herase := hchain.eraseP (p := fun e' => decide (e'.1 = e.1))
    rwa [List.eraseP_cons_of_pos (by simp)] at herase
  rw [hdelete]
  refine ⟨hwf', ⟨h.ongoing.index, ?_, h.ongoing.entry, h.ongoing.nonneg⟩, ?_, hperm⟩
  · rw [htable', List.getD_eq_getElem?_getD, List.getElem?_modify, htable]
    simpa using hrest
  · have hlt : it.index.toNat < (it.index + 1).toNat := by
      have := h.index
      omega
    rw [DictIterator.pending, DictIterator.pending, htable', List.drop_modify_of_lt _ _ _ _ hlt]

end DictIterator.Returned

theorem DictIterator.Ongoing.sweep [DecidableEq K] {it : DictIterator K V} (h : it.Ongoing d)
    (hwf : d.WF hash) (keep : K × V → Bool) {n : ℕ} (hn : (it.pending d).length < n) :
    (sweep hash keep n d it).1 = it.pending d ∧ (YcsbC.sweep hash keep n d it).2.WF hash ∧
      d.entries.Perm (((it.pending d).filter fun e => !keep e) ++
        (YcsbC.sweep hash keep n d it).2.entries) := by
  induction n generalizing d it with
  | zero => exact absurd hn (Nat.not_lt_zero _)
  | succ n ih =>
    have hyields := h.yields
    rw [YcsbC.sweep]
    generalize dictNext d it = out at hyields
    obtain ⟨out, it'⟩ := out
    cases hpending : it.pending d with
    | nil =>
      rw [hpending] at hyields
      obtain rfl : out = none := hyields
      exact ⟨rfl, hwf, .refl _⟩
    | cons e rest =>
      rw [hpending] at hyields hn
      obtain ⟨rfl, rfl, hreturned⟩ : out = some e ∧ it'.pending d = rest ∧ it'.Returned d e :=
        hyields
      rw [List.length_cons] at hn
      simp only [List.filter_cons]
      cases hkeep : keep e with
      | true =>
        obtain ⟨hvisited, hwf', hperm⟩ := ih hreturned.ongoing hwf (Nat.lt_of_succ_lt_succ hn)
        exact ⟨congrArg (e :: ·) hvisited, hwf', hperm⟩
      | false =>
        obtain ⟨hdelete, hongoing, hsame, hperm⟩ := hreturned.dictDelete hwf
        rw [← hsame] at hn ⊢
        obtain ⟨hvisited, hwf', hperm'⟩ := ih hongoing hdelete (Nat.lt_of_succ_lt_succ hn)
        exact ⟨congrArg (e :: ·) hvisited, hwf', hperm.trans (hperm'.cons e)⟩

/-- An iteration over a table that some operations have made, whose user deletes the returned
entries that are not to be kept: it ends, it visits every entry of the map once, and the entries
that are kept are left. -/
theorem sweep_dictRun [DecidableEq K] (hash : K → UInt32) {ops : List (DictOp K V)}
    (h : ops.length ≤ 2 ^ 30) (keep : K × V → Bool) {n : ℕ} (hn : ops.length < n) :
    let m := (mapRun (fun _ => none) ops).2
    let out := sweep hash keep n (dictRun hash dictCreate ops).2 dictGetIterator
    (out.1.map Prod.fst).Nodup ∧ Denotes out.1 m ∧
      Denotes out.2.entries fun key => (m key).filter fun val => keep (key, val) := by
  obtain ⟨-, hwf, hdenotes, hs⟩ := dictRun_dictCreate hash h
  generalize (dictRun hash dictCreate ops).2 = d at hwf hdenotes hs
  have hbegin : (dictGetIterator : DictIterator K V).Ongoing d :=
    ⟨le_refl _, List.nil_sublist _, fun _ => rfl, fun hne => absurd rfl hne⟩
  have hpending : (dictGetIterator : DictIterator K V).pending d = d.entries := rfl
  obtain ⟨hvisited, -, hperm⟩ := hbegin.sweep hwf keep (n := n) (by
    rw [hpending, ← hwf.used]
    exact lt_of_le_of_lt hs.used_le hn)
  rw [hpending] at hvisited hperm
  have hkept : (d.entries.filter keep).Perm (sweep hash keep n d dictGetIterator).2.entries :=
    (List.perm_append_left_iff _).1
      (((List.perm_append_comm.trans (List.filter_append_perm keep d.entries))).trans hperm)
  refine ⟨hvisited ▸ hwf.nodup, hvisited ▸ hdenotes, fun key val => ?_⟩
  rw [← hkept.mem_iff, List.mem_filter, ← hdenotes key val, Option.filter_eq_some_iff]

/-- The entries of two chains, one of which is deleted. -/
theorem sweep_dictRun_three :
    let ops := [DictOp.add 1 'a', .add 2 'b', .add 5 'c']
    let keep : ℕ × Char → Bool := fun e => e.2 != 'c'
    let out := sweep UInt32.ofNat keep 4 (dictRun UInt32.ofNat dictCreate ops).2 dictGetIterator
    let m := (mapRun (fun _ => none) ops).2
    (out.1.map Prod.fst).Nodup ∧ Denotes out.1 m ∧
      Denotes out.2.entries fun key => (m key).filter fun val => keep (key, val) :=
  sweep_dictRun UInt32.ofNat (by decide) _ (by decide)

end YcsbC
