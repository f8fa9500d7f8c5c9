import Mathlib.Algebra.Group.Nat.Defs
import Mathlib.Data.List.Nodup
import YcsbC.Foundation.Chains
import YcsbC.Lib.VmpString

/-!
# The hash table of hiredis

A `dict` is a table of chains whose size is a power of two; it is doubled when there are as many
entries as chains (`redis/hiredis/dict.c`). The asynchronous contexts keep the callbacks of their
subscriptions in two of them.

The functions of the `dictType` are a hash function and the equality of keys; copies and destructors
are left out. Allocations succeed. The code keeps an index in an `int`, so that a table has fewer
than 2^31 chains.

## Main definitions

* `Dict`: the table with the number of its entries.
* `dictExpand`, `dictAdd`, `dictReplace`, `dictDelete`, `dictFind`: the operations.
* `DictIterator`, `dictNext`: an iteration.
* `Dict.WF`: the invariant.

## Main results

* `Dict.WF.dictAdd_of_notMem`, `WF.dictReplace_of_mem`, `WF.dictDelete_of_mem` and the like: what an
  operation does to the entries.
-/

namespace YcsbC

/-- `dictGenHashFunction`. -/
def dictGenHashFunction (buf : Str) : UInt32 :=
  buf.foldl (fun hash c => (hash <<< 5) + hash + UInt32.ofNat c.toNat) 5381

/-- A `dict`: the chains and the number of entries; `size` is the number of chains. -/
structure Dict (K V : Type) where
  table : List (List (K × V))
  used : ℕ

/-- A `dictIterator`; `nextEntry` is the rest of the chain. -/
structure DictIterator (K V : Type) where
  index : ℤ
  entry : Option (K × V)
  nextEntry : List (K × V)

variable {K V : Type}

/-- `dictCreate`. -/
def dictCreate : Dict K V := ⟨[], 0⟩

namespace Dict

/-- `ht->size`. -/
def size (d : Dict K V) : ℕ := d.table.length

/-- The entries, chain by chain. -/
def entries (d : Dict K V) : List (K × V) := d.table.flatten

end Dict

/-- The loop of `_dictNextPower`, at most `n` times. -/
def nextPowerLoop (size : ℕ) : ℕ → ℕ → ℕ
  | 0, i => i
  | n + 1, i => if size ≤ i then i else nextPowerLoop size n (i * 2)

/-- `_dictNextPower`. -/
def dictNextPower (size : ℕ) : ℕ :=
  if 2 ^ 63 - 1 ≤ size then 2 ^ 63 - 1 else nextPowerLoop size size 4

section Operations

variable (hash : K → UInt32)

/-- The index of a key in a table of `size` chains. -/
def dictIndex (size : ℕ) (key : K) : ℕ := (hash key).toNat &&& (size - 1)

/-- The loop of `dictExpand`: the entries of the chains are linked into the new table, as long as
`used` counts entries that are left. -/
def moveChains (size : ℕ) : List (List (K × V)) → ℕ → List (List (K × V)) →
    List (List (K × V))
  | [], _, n => n
  | chain :: chains, used, n =>
    if used = 0 then n
    else
      moveChains size chains (used - chain.length)
        (chain.foldl (fun n e => n.modify (dictIndex hash size e.1) (e :: ·)) n)

/-- `dictExpand`; the result is whether it returns `DICT_OK`. -/
def dictExpand (d : Dict K V) (size : ℕ) : Bool × Dict K V :=
  let realsize := dictNextPower size
  if size < d.used then (false, d)
  else (true, ⟨moveChains hash realsize d.table d.used (List.replicate realsize []), d.used⟩)

/-- `_dictExpandIfNeeded`. -/
def dictExpandIfNeeded (d : Dict K V) : Bool × Dict K V :=
  if d.size = 0 then dictExpand hash d 4
  else if d.used = d.size then dictExpand hash d (d.size * 2)
  else (true, d)

/-- The chain of a key. -/
def dictChain (d : Dict K V) (key : K) : List (K × V) :=
  d.table.getD (dictIndex hash d.size key) []

variable [DecidableEq K]

/-- `dictFind`. -/
def dictFind (d : Dict K V) (key : K) : Option (K × V) :=
  if d.size = 0 then none else (dictChain hash d key).find? fun e => e.1 = key

/-- `_dictKeyIndex`, which may expand the table; there is no index if the key exists. -/
def dictKeyIndex (d : Dict K V) (key : K) : Option ℕ × Dict K V :=
  match dictExpandIfNeeded hash d with
  | (false, d) => (none, d)
  | (true, d) =>
    if (dictChain hash d key).any fun e => e.1 = key then (none, d)
    else (some (dictIndex hash d.size key), d)

/-- `dictAdd`; the result is whether it returns `DICT_OK`. -/
def dictAdd (d : Dict K V) (key : K) (val : V) : Bool × Dict K V :=
  match dictKeyIndex hash d key with
  | (none, d) => (false, d)
  | (some index, d) => (true, ⟨d.table.modify index ((key, val) :: ·), d.used + 1⟩)

/-- Set the value of the entry that `dictFind` finds in a chain. -/
def setHashVal (key : K) (val : V) : List (K × V) → List (K × V)
  | [] => []
  | e :: chain => if e.1 = key then (e.1, val) :: chain else e :: setHashVal key val chain

/-- `dictReplace`; the result is whether the key was added from scratch. -/
def dictReplace (d : Dict K V) (key : K) (val : V) : Bool × Dict K V :=
  match dictAdd hash d key val with
  | (true, d) => (true, d)
  | (false, d) =>
    (false, ⟨d.table.modify (dictIndex hash d.size key) (setHashVal key val), d.used⟩)

/-- `dictDelete`; the result is whether it returns `DICT_OK`. -/
def dictDelete (d : Dict K V) (key : K) : Bool × Dict K V :=
  if d.size = 0 then (false, d)
  else if (dictChain hash d key).any fun e => e.1 = key then
    (true, ⟨d.table.modify (dictIndex hash d.size key) (·.eraseP fun e => e.1 = key), d.used - 1⟩)
  else (false, d)

end Operations

/-! ### Iterations -/

/-- `dictGetIterator`. -/
def dictGetIterator : DictIterator K V := ⟨-1, none, []⟩

/-- The loop of `dictNext`, at most `n` times. -/
def dictNextLoop (d : Dict K V) : ℕ → DictIterator K V → Option (K × V) × DictIterator K V
  | 0, it => (none, it)
  | n + 1, ⟨index, none, nextEntry⟩ =>
    if (d.size : ℤ) ≤ index + 1 then (none, ⟨index + 1, none, nextEntry⟩)
    else
      match d.table.getD (index + 1).toNat [] with
      | [] => dictNextLoop d n ⟨index + 1, none, nextEntry⟩
      | e :: rest => (some e, ⟨index + 1, some e, rest⟩)
  | n + 1, ⟨index, some _, []⟩ => dictNextLoop d n ⟨index, none, []⟩
  | _ + 1, ⟨index, some _, e :: rest⟩ => (some e, ⟨index, some e, rest⟩)

/-- `dictNext`; each turn but the first takes the next chain. -/
def dictNext (d : Dict K V) (it : DictIterator K V) : Option (K × V) × DictIterator K V :=
  dictNextLoop d (d.size + 2) it

/-! ### Indices -/

variable {hash : K → UInt32} {d : Dict K V} {key : K} {val : V}

theorem dictIndex_lt {size : ℕ} (h : 0 < size) (key : K) : dictIndex hash size key < size :=
  lt_of_le_of_lt Nat.and_le_right (Nat.sub_lt h Nat.one_pos)

theorem le_nextPowerLoop (size n i : ℕ) : i ≤ nextPowerLoop size n i := by
  induction n generalizing i with
  | zero => exact le_refl i
  | succ n ih =>
    rw [nextPowerLoop]
    split_ifs
    · exact le_refl i
    · exact le_trans (Nat.le_mul_of_pos_right i Nat.two_pos) (ih _)

theorem dictNextPower_pos (size : ℕ) : 0 < dictNextPower size := by
  rw [dictNextPower]
  split_ifs
  · decide
  · exact lt_of_lt_of_le (by decide) (le_nextPowerLoop size size 4)

/-- Every entry is in the chain of its key. -/
def Slots (hash : K → UInt32) (t : List (List (K × V))) : Prop :=
  ∀ i chain, t[i]? = some chain → ∀ e ∈ chain, dictIndex hash t.length e.1 = i

theorem Slots.modify {t : List (List (K × V))} (h : Slots hash t) {i : ℕ}
    {f : List (K × V) → List (K × V)}
    (hf : ∀ chain, t[i]? = some chain → ∀ e ∈ f chain,
      (∃ e' ∈ chain, e.1 = e'.1) ∨ dictIndex hash t.length e.1 = i) :
    Slots hash (t.modify i f) := by
  intro j chain hchain e he
  rw [List.length_modify]
  rw [List.getElem?_modify] at hchain
  obtain ⟨chain', hchain', rfl⟩ := Option.map_eq_some_iff.1 hchain
  by_cases hij : i = j
  · obtain rfl := hij
    simp only [if_true] at he
    rcases hf chain' hchain' e he with ⟨e', he', hkey⟩ | hindex
    · rw [hkey]
      exact h i chain' hchain' e' he'
    · exact hindex
  · simp only [if_neg hij] at he
    exact h j chain' hchain' e he

theorem Slots.link {t : List (List (K × V))} (h : Slots hash t) (e : K × V) :
    Slots hash (t.modify (dictIndex hash t.length e.1) (e :: ·)) :=
  h.modify fun _ _ e' he' => (List.mem_cons.1 he').elim (fun heq => .inr (by rw [heq])) fun hmem =>
    .inl ⟨e', hmem, rfl⟩

/-! ### Expansion -/

theorem foldl_link (chain : List (K × V)) {t : List (List (K × V))} (hslots : Slots hash t)
    (hpos : 0 < t.length) :
    let t' := chain.foldl (fun t' e => t'.modify (dictIndex hash t.length e.1) (e :: ·)) t
    t'.length = t.length ∧ Slots hash t' ∧ t'.flatten.Perm (chain ++ t.flatten) := by
  induction chain generalizing t with
  | nil => exact ⟨rfl, hslots, .refl _⟩
  | cons e chain ih =>
    have hlength : (t.modify (dictIndex hash t.length e.1) (e :: ·)).length = t.length :=
      List.length_modify ..
    have hindex : dictIndex hash t.length e.1 < t.length := dictIndex_lt hpos e.1
    have hlink := flatten_link_perm hindex e
    obtain ⟨hlength', hslots', hperm⟩ := ih (hslots.link e) (by rwa [hlength])
    rw [hlength] at hlength' hslots' hperm
    refine ⟨hlength', hslots', hperm.trans ?_⟩
    exact (hlink.append_left chain).trans List.perm_middle

theorem moveChains_spec {chains t : List (List (K × V))} {used : ℕ}
    (hused : used = chains.flatten.length) (hslots : Slots hash t) (hpos : 0 < t.length) :
    (moveChains hash t.length chains used t).length = t.length ∧
      Slots hash (moveChains hash t.length chains used t) ∧
      (moveChains hash t.length chains used t).flatten.Perm (chains.flatten ++ t.flatten) := by
  induction chains generalizing used t with
  | nil => exact ⟨rfl, hslots, .refl _⟩
  | cons chain chains ih =>
    rw [List.flatten_cons, List.length_append] at hused
    rw [moveChains]
    split_ifs with hzero
    · have hnil : (chain :: chains).flatten = [] := by
        rw [← List.length_eq_zero_iff, List.flatten_cons, List.length_append]
        omega
      rw [hnil]
      exact ⟨rfl, hslots, .refl _⟩
    · obtain ⟨hlength, hslots', hperm⟩ := foldl_link chain hslots hpos
      generalize chain.foldl _ t = t' at hlength hslots' hperm ⊢
      rw [← hlength]
      obtain ⟨hlength', hslots'', hperm'⟩ :=
        ih (by omega : used - chain.length = _) hslots' (by rwa [hlength])
      refine ⟨hlength', hslots'', hperm'.trans ?_⟩
      rw [List.flatten_cons, List.append_assoc]
      exact (hperm.append_left _).trans (List.perm_append_comm_assoc ..)

/-- The invariant: `used` counts the entries, each is in the chain of its key, and no key has two
entries. -/
structure Dict.WF (hash : K → UInt32) (d : Dict K V) : Prop where
  used : d.used = d.entries.length
  slots : Slots hash d.table
  nodup : (d.entries.map Prod.fst).Nodup

theorem Dict.wf_dictCreate : (dictCreate : Dict K V).WF hash :=
  ⟨rfl, nofun, List.nodup_nil⟩

theorem Dict.entries_of_size_eq_zero (h : d.size = 0) : d.entries = [] := by
  have hnil : d.table = [] := List.eq_nil_of_length_eq_zero h
  rw [Dict.entries, hnil, List.flatten_nil]

theorem Dict.WF.nodup_of_perm {d' : Dict K V} (h : d.WF hash) (hperm : d'.entries.Perm d.entries) :
    (d'.entries.map Prod.fst).Nodup :=
  (hperm.map Prod.fst).nodup_iff.2 h.nodup

/-- `dictExpand` with room for all entries. -/
theorem Dict.WF.dictExpand (h : d.WF hash) {size : ℕ} (hle : d.used ≤ size) :
    (dictExpand hash d size).1 = true ∧ (dictExpand hash d size).2.WF hash ∧
      (dictExpand hash d size).2.size = dictNextPower size ∧
      (dictExpand hash d size).2.entries.Perm d.entries := by
  rw [YcsbC.dictExpand]
  simp only [if_neg (not_lt.2 hle)]
  have hreplicate : Slots hash (List.replicate (dictNextPower size) ([] : List (K × V))) := by
    intro i chain hchain e he
    obtain rfl : [] = chain := by
      rw [List.getElem?_replicate] at hchain
      split_ifs at hchain
      exact Option.some.inj hchain
    cases he
  have hlength : (List.replicate (dictNextPower size) ([] : List (K × V))).length =
      dictNextPower size := List.length_replicate
  have hspec := moveChains_spec h.used hreplicate (by rw [hlength]; exact dictNextPower_pos size)
  rw [hlength] at hspec
  obtain ⟨hsize, hslots, hperm⟩ := hspec
  have hentries : (moveChains hash (dictNextPower size) d.table d.used
      (List.replicate (dictNextPower size) [])).flatten.Perm d.entries := by
    refine hperm.trans (.of_eq ?_)
    simp [Dict.entries]
  exact ⟨trivial, ⟨h.used.trans hentries.length_eq.symm, hslots, h.nodup_of_perm hentries⟩, hsize,
    hentries⟩

/-- `_dictExpandIfNeeded` succeeds, and there are chains afterwards. -/
theorem Dict.WF.dictExpandIfNeeded (h : d.WF hash) :
    ∃ d', YcsbC.dictExpandIfNeeded hash d = (true, d') ∧ d'.WF hash ∧ 0 < d'.size ∧
      d'.entries.Perm d.entries := by
  rw [YcsbC.dictExpandIfNeeded]
  split_ifs with hzero hfull
  · have hused : d.used = 0 := by rw [h.used, entries_of_size_eq_zero hzero]; rfl
    obtain ⟨hok, hwf, hsize, hperm⟩ := h.dictExpand (by omega : d.used ≤ 4)
    exact ⟨_, Prod.ext hok rfl, hwf, hsize ▸ dictNextPower_pos 4, hperm⟩
  · obtain ⟨hok, hwf, hsize, hperm⟩ := h.dictExpand (by omega : d.used ≤ d.size * 2)
    exact ⟨_, Prod.ext hok rfl, hwf, hsize ▸ dictNextPower_pos _, hperm⟩
  · exact ⟨d, rfl, h, by omega, .refl _⟩

/-! ### Looking a key up -/

/-- The entries with a key are those of its chain. -/
theorem Dict.WF.mem_dictChain (h : d.WF hash) {e : K × V} :
    e ∈ dictChain hash d e.1 ↔ e ∈ d.entries := by
  rw [dictChain, Dict.entries, List.mem_flatten, List.getD_eq_getElem?_getD]
  constructor
  · intro he
    cases hchain : d.table[dictIndex hash d.size e.1]? with
    | none =>
      rw [hchain] at he
      cases he
    | some chain =>
      rw [hchain] at he
      exact ⟨chain, List.mem_of_getElem? hchain, he⟩
  · rintro ⟨chain, hchain, he⟩
    obtain ⟨i, hi⟩ := List.getElem?_of_mem hchain
    have hindex : dictIndex hash d.size e.1 = i := h.slots i chain hi e he
    rw [hindex, hi]
    exact he

/-- A chain of a key without entries has none. -/
theorem Dict.WF.any_dictChain [DecidableEq K] (h : d.WF hash) (key : K) :
    ((dictChain hash d key).any fun e => e.1 = key) = true ↔ ∃ val, (key, val) ∈ d.entries := by
  rw [List.any_eq_true]
  constructor
  · rintro ⟨⟨k, val⟩, he, hkey⟩
    obtain rfl : k = key := of_decide_eq_true hkey
    exact ⟨val, h.mem_dictChain.1 he⟩
  · rintro ⟨val, he⟩
    exact ⟨(key, val), h.mem_dictChain.2 he, decide_eq_true rfl⟩

theorem Dict.WF.eq_of_mem (h : d.WF hash) {e e' : K × V} (he : e ∈ d.entries)
    (he' : e' ∈ d.entries) (hkey : e.1 = e'.1) : e = e' :=
  List.inj_on_of_nodup_map h.nodup he he' hkey

/-- `dictFind` finds the entry of a key. -/
theorem Dict.WF.dictFind_eq_some_iff [DecidableEq K] (h : d.WF hash) {e : K × V} :
    dictFind hash d key = some e ↔ e ∈ d.entries ∧ e.1 = key := by
  rw [dictFind]
  split_ifs with hzero
  · rw [entries_of_size_eq_zero hzero]
    simp
  · constructor
    · intro hfind
      have hkey : e.1 = key := by simpa using List.find?_some hfind
      have hmem := List.mem_of_find?_eq_some hfind
      rw [← hkey] at hmem
      exact ⟨h.mem_dictChain.1 hmem, hkey⟩
    · rintro ⟨he, rfl⟩
      have hmem := h.mem_dictChain.2 he
      cases hfind : (dictChain hash d e.1).find? fun e' => e'.1 = e.1 with
      | none => exact absurd (List.find?_eq_none.1 hfind e hmem) (by simp)
      | some e' =>
        have hkey : e'.1 = e.1 := by simpa using List.find?_some hfind
        have hmem' := List.mem_of_find?_eq_some hfind
        rw [← hkey] at hmem'
        rw [h.eq_of_mem (h.mem_dictChain.1 hmem') he hkey]

/-! ### The operations -/

section Operations

variable [DecidableEq K]

theorem Dict.WF.dictKeyIndex_of_mem (h : d.WF hash) (hmem : ∃ old, (key, old) ∈ d.entries) :
    ∃ d', dictKeyIndex hash d key = (none, d') ∧ d'.WF hash ∧ 0 < d'.size ∧
      d'.entries.Perm d.entries := by
  obtain ⟨d', hexpand, hwf, hpos, hperm⟩ := h.dictExpandIfNeeded
  obtain ⟨old, hold⟩ := hmem
  have hany := (hwf.any_dictChain key).2 ⟨old, hperm.mem_iff.2 hold⟩
  exact ⟨d', by rw [dictKeyIndex, hexpand]; exact if_pos hany, hwf, hpos, hperm⟩

theorem Dict.WF.dictKeyIndex_of_notMem (h : d.WF hash)
    (hmem : ¬ ∃ old, (key, old) ∈ d.entries) :
    ∃ d', dictKeyIndex hash d key = (some (dictIndex hash d'.size key), d') ∧ d'.WF hash ∧
      0 < d'.size ∧ d'.entries.Perm d.entries := by
  obtain ⟨d', hexpand, hwf, hpos, hperm⟩ := h.dictExpandIfNeeded
  have hany : ¬ ((dictChain hash d' key).any fun e => e.1 = key) = true := fun hany => by
    obtain ⟨old, hold⟩ := (hwf.any_dictChain key).1 hany
    exact hmem ⟨old, hperm.mem_iff.1 hold⟩
  exact ⟨d', by rw [dictKeyIndex, hexpand]; exact if_neg hany, hwf, hpos, hperm⟩

theorem Dict.WF.dictAdd_of_mem (h : d.WF hash) (hmem : ∃ old, (key, old) ∈ d.entries) (val : V) :
    ∃ d', dictAdd hash d key val = (false, d') ∧ d'.WF hash ∧ 0 < d'.size ∧
      d'.entries.Perm d.entries := by
  obtain ⟨d', hindex, hwf, hpos, hperm⟩ := h.dictKeyIndex_of_mem hmem
  exact ⟨d', by rw [dictAdd, hindex], hwf, hpos, hperm⟩

theorem Dict.WF.dictAdd_of_notMem (h : d.WF hash) (hmem : ¬ ∃ old, (key, old) ∈ d.entries)
    (val : V) :
    ∃ d', dictAdd hash d key val = (true, d') ∧ d'.WF hash ∧
      d'.entries.Perm ((key, val) :: d.entries) := by
  obtain ⟨d', hindex, hwf, hpos, hperm⟩ := h.dictKeyIndex_of_notMem hmem
  have hadd : dictAdd hash d key val =
      (true, ⟨d'.table.modify (dictIndex hash d'.size key) ((key, val) :: ·), d'.used + 1⟩) := by
    rw [dictAdd, hindex]
  have hlink : (d'.table.modify (dictIndex hash d'.size key) ((key, val) :: ·)).flatten.Perm
      ((key, val) :: d.entries) :=
    (flatten_link_perm (dictIndex_lt hpos key) (key, val)).trans (hperm.cons _)
  refine ⟨_, hadd, ⟨?_, hwf.slots.link (key, val), ?_⟩, hlink⟩
  · show d'.used + 1 = _
    rw [Dict.entries, hlink.length_eq, hwf.used, hperm.length_eq, List.length_cons]
  · refine (hlink.map Prod.fst).nodup_iff.2 (List.nodup_cons.2 ⟨fun hkey => ?_, h.nodup⟩)
    obtain ⟨⟨k, old⟩, he, rfl⟩ := List.mem_map.1 hkey
    exact hmem ⟨old, he⟩

theorem setHashVal_perm {chain : List (K × V)} {old : V} (h : (key, old) ∈ chain) (val : V) :
    ∃ old, (key, old) ∈ chain ∧
      ((key, val) :: chain).Perm ((key, old) :: setHashVal key val chain) := by
  induction chain with
  | nil => cases h
  | cons e chain ih =>
    obtain ⟨k, v⟩ := e
    rw [setHashVal]
    split_ifs with hkey
    · obtain rfl : k = key := hkey
      exact ⟨v, List.mem_cons_self, List.Perm.swap ..⟩
    · have hne : (key, old) ≠ (k, v) := fun heq => hkey (congrArg Prod.fst heq).symm
      obtain ⟨old', hmem, hperm⟩ := ih ((List.mem_cons.1 h).resolve_left hne)
      refine ⟨old', List.mem_cons_of_mem _ hmem, ?_⟩
      exact (List.Perm.swap ..).trans ((hperm.cons (k, v)).trans (List.Perm.swap ..))

theorem exists_of_mem_setHashVal {chain : List (K × V)} {e : K × V}
    (h : e ∈ setHashVal key val chain) : ∃ e' ∈ chain, e.1 = e'.1 := by
  induction chain with
  | nil => cases h
  | cons e₀ chain ih =>
    rw [setHashVal] at h
    split_ifs at h
    · rcases List.mem_cons.1 h with rfl | h
      · exact ⟨e₀, List.mem_cons_self, rfl⟩
      · exact ⟨e, List.mem_cons_of_mem e₀ h, rfl⟩
    · rcases List.mem_cons.1 h with rfl | h
      · exact ⟨e, List.mem_cons_self, rfl⟩
      · obtain ⟨e', he', hkey⟩ := ih h
        exact ⟨e', List.mem_cons_of_mem e₀ he', hkey⟩

omit [DecidableEq K] in
/-- The chain of a key, as it stands in the table. -/
theorem dictChain_eq (h : dictIndex hash d.size key < d.table.length) :
    dictChain hash d key = d.table[dictIndex hash d.size key] := by
  rw [dictChain, List.getD_eq_getElem?_getD, List.getElem?_eq_getElem h]
  rfl

theorem Dict.WF.dictReplace_of_mem (h : d.WF hash) (hmem : ∃ old, (key, old) ∈ d.entries)
    (val : V) :
    ∃ d' old rest, dictReplace hash d key val = (false, d') ∧ d'.WF hash ∧
      d.entries.Perm ((key, old) :: rest) ∧ d'.entries.Perm ((key, val) :: rest) := by
  obtain ⟨d', hadd, hwf, hpos, hperm⟩ := h.dictAdd_of_mem hmem val
  obtain ⟨old₀, hold₀⟩ := hmem
  have hmem' : (key, old₀) ∈ dictChain hash d' key :=
    hwf.mem_dictChain.2 (hperm.mem_iff.2 hold₀)
  obtain ⟨old, hold, hset⟩ := setHashVal_perm hmem' val
  have hold' := hperm.mem_iff.1 (hwf.mem_dictChain.1 hold)
  rw [dictChain_eq (dictIndex_lt hpos key)] at hset
  have hentries : ((key, val) :: d'.entries).Perm ((key, old) ::
      (d'.table.modify (dictIndex hash d'.size key) (setHashVal key val)).flatten) :=
    flatten_modify_perm (x := [(key, val)]) (y := [(key, old)]) (dictIndex_lt hpos key) hset
  have hkeys := (hentries.map Prod.fst).cons_inv
  obtain ⟨front, back, hsplit⟩ := List.append_of_mem hold'
  have hrest : d.entries.Perm ((key, old) :: (front ++ back)) := by
    rw [hsplit]
    exact List.perm_middle
  have hswap : ((key, old) :: (key, val) :: (front ++ back)).Perm ((key, old) :: _) :=
    (List.Perm.swap ..).trans (((hperm.trans hrest).symm.cons (key, val)).trans hentries)
  refine ⟨⟨d'.table.modify (dictIndex hash d'.size key) (setHashVal key val), d'.used⟩, old,
    front ++ back, by rw [dictReplace, hadd], ⟨?_, ?_, hkeys.nodup_iff.1 hwf.nodup⟩, hrest,
    hswap.cons_inv.symm⟩
  · rw [hwf.used]
    exact Nat.succ_injective hentries.length_eq
  · exact hwf.slots.modify fun chain _ e he => .inl (exists_of_mem_setHashVal he)

theorem Dict.WF.dictReplace_of_notMem (h : d.WF hash) (hmem : ¬ ∃ old, (key, old) ∈ d.entries)
    (val : V) :
    ∃ d', dictReplace hash d key val = (true, d') ∧ d'.WF hash ∧
      d'.entries.Perm ((key, val) :: d.entries) := by
  obtain ⟨d', hadd, hwf, hperm⟩ := h.dictAdd_of_notMem hmem val
  exact ⟨d', by rw [dictReplace, hadd], hwf, hperm⟩

theorem Dict.WF.dictDelete_of_mem (h : d.WF hash) {old : V} (hmem : (key, old) ∈ d.entries) :
    ∃ d', dictDelete hash d key = (true, d') ∧ d'.WF hash ∧
      d.entries.Perm ((key, old) :: d'.entries) ∧
      d'.table = d.table.modify (dictIndex hash d.size key) (·.eraseP fun e => e.1 = key) := by
  have hpos : 0 < d.size := by
    rw [Nat.pos_iff_ne_zero]
    intro hzero
    rw [entries_of_size_eq_zero hzero] at hmem
    cases hmem
  have hmem' : (key, old) ∈ dictChain hash d key := h.mem_dictChain.2 hmem
  have hany := (h.any_dictChain key).2 ⟨old, hmem⟩
  obtain ⟨⟨k, v⟩, front, back, -, hkey, hchain, herase⟩ :=
    List.exists_of_eraseP hmem' (p := fun e => decide (e.1 = key)) (decide_eq_true rfl)
  obtain rfl : k = key := of_decide_eq_true hkey
  have hfound : (k, v) ∈ d.entries := by
    refine h.mem_dictChain.1 ?_
    rw [hchain]
    exact List.mem_append_right _ List.mem_cons_self
  obtain rfl : v = old := congrArg Prod.snd (h.eq_of_mem hfound hmem rfl)
  have hperm : (dictChain hash d k).Perm ((k, v) :: (dictChain hash d k).eraseP
      fun e => e.1 = k) := by
    rw [herase, hchain]
    exact List.perm_middle
  rw [dictChain_eq (dictIndex_lt hpos k)] at hperm
  have hentries : d.entries.Perm ((k, v) ::
      (d.table.modify (dictIndex hash d.size k) (·.eraseP fun e => e.1 = k)).flatten) :=
    flatten_modify_perm (x := []) (y := [(k, v)]) (dictIndex_lt hpos k) hperm
  refine ⟨⟨d.table.modify (dictIndex hash d.size k) (·.eraseP fun e => e.1 = k), d.used - 1⟩,
    by rw [dictDelete, if_neg hpos.ne', if_pos hany], ⟨?_, ?_, ?_⟩, hentries, rfl⟩
  · rw [h.used, hentries.length_eq]
    rfl
  · exact h.slots.modify fun chain _ e he => .inl ⟨e, List.mem_of_mem_eraseP he, rfl⟩
  · exact (List.nodup_cons.1 ((hentries.map Prod.fst).nodup_iff.1 h.nodup)).2

theorem Dict.WF.dictDelete_of_notMem (h : d.WF hash) (hmem : ¬ ∃ old, (key, old) ∈ d.entries) :
    dictDelete hash d key = (false, d) := by
  rw [dictDelete]
  split_ifs with hzero hany
  · rfl
  · exact absurd ((h.any_dictChain key).1 hany) hmem
  · rfl

theorem Dict.WF.wf_dictReplace (h : d.WF hash) (key : K) (val : V) :
    (dictReplace hash d key val).2.WF hash := by
  by_cases hmem : ∃ old, (key, old) ∈ d.entries
  · obtain ⟨d', old, rest, hreplace, hwf, -, -⟩ := h.dictReplace_of_mem hmem val
    rwa [hreplace]
  · obtain ⟨d', hreplace, hwf, -⟩ := h.dictReplace_of_notMem hmem val
    rwa [hreplace]

theorem Dict.WF.wf_dictDelete (h : d.WF hash) (key : K) : (dictDelete hash d key).2.WF hash := by
  by_cases hmem : ∃ old, (key, old) ∈ d.entries
  · obtain ⟨old, hold⟩ := hmem
    obtain ⟨d', hdelete, hwf, -, -⟩ := h.dictDelete_of_mem hold
    rwa [hdelete]
  · rwa [h.dictDelete_of_notMem hmem]

end Operations

end YcsbC
