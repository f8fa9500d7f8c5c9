import YcsbC.Foundation.Heap
import YcsbC.Lib.StlHashtable

/-!
# The memory of the keys of a hashtable

`StlHashtable::Insert` copies its key into a block of its own before it asks the map to take the
entry, and `Remove` releases the block of the entry that it erases (`lib/stl_hashtable.h`,
`lib/string.h`). An insertion that the map rejects keeps the copy that it made: nothing points to
the block any more. Every other block is released once, with its entry.

## Main definitions

* `BlockTable`: a hashtable, with the block of the key of each entry, and the blocks released so
  far.
* `BlockTable.insert`, `update`, `remove`: the three operations with their copies and releases.
* `TableOp`, `BlockTable.run`: sequences of operations.
* `BlockTable.Sound`, `BlockTable.KeysOwned`: what always holds of the blocks, and what should.

## Main results

* `BlockTable.results_run`: the operations return what those of a `StlHashtable` return.
* `BlockTable.sound_after`: no block is released twice, or while an entry has it.
* `keys_owned_iff`: no block is lost as long as no `Insert` names a key that is present.
-/

namespace YcsbC

/-- A hashtable with the memory of its keys: each entry has the address of the copy of its key and
its value; `freed` lists the addresses passed to `String::Free`, the latest first. -/
structure BlockTable (V : Type) where
  table : StlHashtable (ℕ × V)
  keys : Heap Str
  freed : List ℕ

/-- A call that changes a hashtable. `Insert` accepts `NULL` as its key. -/
inductive TableOp (V : Type) where
  | insert (key : Option Str) (value : V)
  | update (key : Str) (value : V)
  | remove (key : Str)

/-- What a call on a hashtable returns. -/
inductive TableResult (V : Type) where
  | inserted (ok : Bool)
  | value (old : Option V)

namespace TableOp

variable {V : Type}

/-- One call, without the memory of the keys. -/
def apply (t : StlHashtable V) : TableOp V → TableResult V × StlHashtable V
  | insert none _ => (.inserted false, t)
  | insert (some key) value => (.inserted (t.insert key value).1, (t.insert key value).2)
  | update key value => (.value (t.update key value).1, (t.update key value).2)
  | remove key => (.value (t.remove key).1, (t.remove key).2)

/-- A sequence of calls, with their results. -/
def runAll (t : StlHashtable V) : List (TableOp V) → List (TableResult V) × StlHashtable V
  | [] => ([], t)
  | op :: ops => ((op.apply t).1 :: (runAll (op.apply t).2 ops).1, (runAll (op.apply t).2 ops).2)

end TableOp

namespace BlockTable

variable {V : Type}

/-- A new hashtable. -/
def empty : BlockTable V := ⟨.empty, .empty, []⟩

/-- `StlHashtable::Insert`: the key is copied before the map decides. -/
def insert (t : BlockTable V) (key : Option Str) (value : V) : Bool × BlockTable V :=
  match key with
  | none => (false, t)
  | some key =>
    let skey := t.keys.alloc (cStr key)
    let r := t.table.insert key (skey.1, value)
    (r.1, { t with table := r.2, keys := skey.2 })

/-- `StlHashtable::Update`: the entry keeps its key. -/
def update (t : BlockTable V) (key : Str) (value : V) : Option V × BlockTable V :=
  match t.table.get key with
  | none => (none, t)
  | some (block, old) => (some old, { t with table := t.table.assign (.wrap key) (block, value) })

/-- `StlHashtable::Remove`: the block of the key is released with the entry. -/
def remove (t : BlockTable V) (key : Str) : Option V × BlockTable V :=
  match t.table.get key with
  | none => (none, t)
  | some (block, old) =>
    (some old, ⟨t.table.erase (.wrap key), t.keys.free block, block :: t.freed⟩)

/-- One call. -/
def step (t : BlockTable V) : TableOp V → TableResult V × BlockTable V
  | .insert key value => (.inserted (t.insert key value).1, (t.insert key value).2)
  | .update key value => (.value (t.update key value).1, (t.update key value).2)
  | .remove key => (.value (t.remove key).1, (t.remove key).2)

/-- A sequence of calls, with their results. -/
def run (t : BlockTable V) : List (TableOp V) → List (TableResult V) × BlockTable V
  | [] => ([], t)
  | op :: ops => ((t.step op).1 :: ((t.step op).2.run ops).1, ((t.step op).2.run ops).2)

/-- The table after a sequence of calls on a new one. -/
def after (ops : List (TableOp V)) : BlockTable V := (empty.run ops).2

/-- The entry of the key `k` has the block `b`. -/
def HasBlock (t : BlockTable V) (k : VmpString) (b : ℕ) : Prop :=
  ∃ value, t.table.find k = some (b, value)

/-- Every entry has a block of its own, in which the characters of its key are found, and the
released blocks are those that were released by `String::Free`, each once. -/
structure Sound (t : BlockTable V) : Prop where
  chars : ∀ k b, t.HasBlock k b → t.keys.get b = some k.value
  block_inj : ∀ k k' b, t.HasBlock k b → t.HasBlock k' b → k = k'
  freed_nodup : t.freed.Nodup
  freed_iff : ∀ b, b ∈ t.freed ↔ t.keys.Released b

/-- The live blocks are those of the entries. -/
structure KeysOwned (t : BlockTable V) : Prop extends t.Sound where
  live_iff : ∀ b, (t.keys.get b).isSome ↔ ∃ k, t.HasBlock k b

variable {t : BlockTable V} {ops : List (TableOp V)}

theorem Sound.next_unused (h : t.Sound) (k : VmpString) : ¬ t.HasBlock k t.keys.next := fun hk => by
  have hchars := h.chars k _ hk
  rw [Heap.get_next] at hchars
  cases hchars

/-! ### What one call does -/

/-- `Insert` of a new key: the entry has the copy as its block. -/
theorem insert_of_get_none {key : Str} (hkey : t.table.get key = none) (value : V) :
    (t.insert (some key) value).1 = true ∧
      (t.insert (some key) value).2.keys = (t.keys.alloc (cStr key)).2 ∧
      ∀ k, (t.insert (some key) value).2.table.find k =
        if k = .wrap key then some (t.keys.next, value) else t.table.find k := by
  refine ⟨?_, rfl, fun k => ?_⟩
  · rw [insert, StlHashtable.insert_fst, hkey, Option.isNone_none]
  · refine (StlHashtable.find_insert t.table key (t.keys.next, value) k).trans ?_
    rw [hkey, Option.getD_none]

/-- `Insert` of a key that is present leaves nothing but the copy. -/
theorem insert_of_get_some {key : Str} {e : ℕ × V} (hkey : t.table.get key = some e) (value : V) :
    t.insert (some key) value = (false, { t with keys := (t.keys.alloc (cStr key)).2 }) := by
  simp only [insert, StlHashtable.insert_of_get_some hkey]

/-- `Update` leaves every block where it is. -/
theorem hasBlock_update (t : BlockTable V) (key : Str) (value : V) (k : VmpString) (b : ℕ) :
    (t.update key value).2.HasBlock k b ↔ t.HasBlock k b := by
  cases hkey : t.table.get key with
  | none => simp only [update, hkey]
  | some e =>
    obtain ⟨block, old⟩ := e
    have hfind : t.table.find (.wrap key) = some (block, old) := hkey
    simp only [HasBlock, update, hkey, UnorderedMap.find_assign]
    split_ifs with hk
    · simp [hk, hfind]
    · rfl

theorem keys_update (t : BlockTable V) (key : Str) (value : V) :
    (t.update key value).2.keys = t.keys ∧ (t.update key value).2.freed = t.freed := by
  simp only [update]
  cases t.table.get key <;> exact ⟨rfl, rfl⟩

theorem remove_of_get_none {key : Str} (hkey : t.table.get key = none) :
    t.remove key = (none, t) := by
  simp only [remove, hkey]

/-- `Remove` of a key that is present. -/
theorem remove_of_get_some {key : Str} {b : ℕ} {old : V} (hkey : t.table.get key = some (b, old)) :
    t.remove key = (some old, ⟨t.table.erase (.wrap key), t.keys.free b, b :: t.freed⟩) := by
  simp only [remove, hkey]

/-! ### What always holds -/

theorem sound_empty : (empty : BlockTable V).Sound where
  chars k b := by rintro ⟨value, h⟩; cases h
  block_inj k k' b := by rintro ⟨value, h⟩; cases h
  freed_nodup := .nil
  freed_iff b := by simp [empty, Heap.Released, Heap.empty]

/-- A copy of a key that no entry has yet. -/
theorem Sound.alloc (h : t.Sound) (str : Str) :
    ({ t with keys := (t.keys.alloc str).2 } : BlockTable V).Sound where
  chars k b hk := Heap.get_alloc_of_some (h.chars k b hk) str
  block_inj := h.block_inj
  freed_nodup := h.freed_nodup
  freed_iff b := by
    rw [h.freed_iff]
    refine ⟨fun hb => hb.alloc str, fun ⟨hlt, hnone⟩ => ?_⟩
    rw [Heap.get_alloc] at hnone
    split_ifs at hnone with hnext
    have hle : b < t.keys.next + 1 := hlt
    exact ⟨by omega, hnone⟩

theorem Sound.insert (h : t.Sound) (key : Option Str) (value : V) :
    (t.insert key value).2.Sound := by
  cases key with
  | none => exact h
  | some key =>
    cases hkey : t.table.get key with
    | some e =>
      rw [insert_of_get_some hkey]
      exact h.alloc (cStr key)
    | none =>
      obtain ⟨-, hkeys, hfind⟩ := insert_of_get_none hkey value
      have hnew : ∀ k b, (t.insert (some key) value).2.HasBlock k b →
          k = .wrap key ∧ b = t.keys.next ∨ t.HasBlock k b := by
        rintro k b ⟨v, hv⟩
        rw [hfind] at hv
        split_ifs at hv with hk
        · cases hv
          exact .inl ⟨hk, rfl⟩
        · exact .inr ⟨v, hv⟩
      have halloc := h.alloc (cStr key)
      refine ⟨fun k b hk => ?_, fun k k' b hk hk' => ?_, h.freed_nodup, halloc.freed_iff⟩
      · obtain ⟨rfl, rfl⟩ | hold := hnew k b hk
        · rw [hkeys, Heap.get_alloc, if_pos rfl, VmpString.value_wrap]
        · exact halloc.chars k b hold
      · obtain ⟨rfl, rfl⟩ | hold := hnew k b hk
        · obtain ⟨rfl, -⟩ | hold' := hnew k' _ hk'
          · rfl
          · exact absurd hold' (h.next_unused k')
        · obtain ⟨rfl, rfl⟩ | hold' := hnew k' b hk'
          · exact absurd hold (h.next_unused k)
          · exact h.block_inj k k' b hold hold'

theorem Sound.update (h : t.Sound) (key : Str) (value : V) : (t.update key value).2.Sound := by
  obtain ⟨hkeys, hfreed⟩ := keys_update t key value
  refine ⟨fun k b hk => ?_, fun k k' b hk hk' => ?_, ?_, fun b => ?_⟩
  · rw [hkeys]
    exact h.chars k b ((hasBlock_update t key value k b).1 hk)
  · rw [hasBlock_update] at hk hk'
    exact h.block_inj k k' b hk hk'
  · rw [hfreed]
    exact h.freed_nodup
  · rw [hfreed, hkeys]
    exact h.freed_iff b

/-- After `Remove` the other entries have their blocks. -/
theorem hasBlock_remove {key : Str} {b : ℕ} {old : V} (hkey : t.table.get key = some (b, old))
    (k : VmpString) (b' : ℕ) :
    (t.remove key).2.HasBlock k b' ↔ k ≠ .wrap key ∧ t.HasBlock k b' := by
  simp only [HasBlock, remove_of_get_some hkey, UnorderedMap.find_erase]
  split_ifs with hk <;> simp [hk]

theorem Sound.remove (h : t.Sound) (key : Str) : (t.remove key).2.Sound := by
  cases hkey : t.table.get key with
  | none =>
    rw [remove_of_get_none hkey]
    exact h
  | some e =>
    obtain ⟨block, old⟩ := e
    have hblock : t.HasBlock (.wrap key) block := ⟨old, hkey⟩
    have hlive := h.chars _ _ hblock
    have hnew := hasBlock_remove hkey
    have hremove := remove_of_get_some hkey
    refine ⟨fun k b hk => ?_, fun k k' b hk hk' => ?_, ?_, fun b => ?_⟩
    · obtain ⟨hne, hold⟩ := (hnew k b).1 hk
      have hb : b ≠ block := fun hb => hne (h.block_inj k _ block (hb ▸ hold) hblock)
      rw [hremove, Heap.get_free, if_neg hb]
      exact h.chars k b hold
    · exact h.block_inj k k' b ((hnew k b).1 hk).2 ((hnew k' b).1 hk').2
    · rw [hremove, List.nodup_cons, h.freed_iff]
      refine ⟨fun hreleased => ?_, h.freed_nodup⟩
      cases hreleased.2.symm.trans hlive
    · rw [hremove, List.mem_cons, h.freed_iff]
      constructor
      · rintro (rfl | hb)
        · exact Heap.released_free hlive
        · exact hb.free block
      · rintro ⟨hlt, hnone⟩
        rw [Heap.get_free] at hnone
        split_ifs at hnone with hb
        · exact .inl hb
        · exact .inr ⟨hlt, hnone⟩

theorem Sound.step (h : t.Sound) (op : TableOp V) : (t.step op).2.Sound := by
  cases op with
  | insert key value => exact h.insert key value
  | update key value => exact h.update key value
  | remove key => exact h.remove key

theorem Sound.run (h : t.Sound) (ops : List (TableOp V)) : (t.run ops).2.Sound := by
  induction ops generalizing t with
  | nil => exact h
  | cons op ops ih => exact ih (h.step op)

theorem sound_after (ops : List (TableOp V)) : (after ops).Sound := sound_empty.run ops

theorem run_append (t : BlockTable V) (ops ops' : List (TableOp V)) :
    (t.run (ops ++ ops')).2 = ((t.run ops).2.run ops').2 := by
  induction ops generalizing t with
  | nil => rfl
  | cons op ops ih => exact ih (t.step op).2

theorem after_concat (ops : List (TableOp V)) (op : TableOp V) :
    after (ops ++ [op]) = ((after ops).step op).2 :=
  run_append empty ops [op]

/-! ### Without the blocks -/

/-- The table `u` has the entries of `t` without their blocks. -/
def Forgets (t : BlockTable V) (u : StlHashtable V) : Prop :=
  ∀ k, u.find k = (t.table.find k).map Prod.snd

theorem Forgets.get {u : StlHashtable V} (h : t.Forgets u) (key : Str) :
    u.get key = (t.table.get key).map Prod.snd := h (.wrap key)

theorem Forgets.insert {u : StlHashtable V} (h : t.Forgets u) (key : Str) (value : V) :
    (t.insert (some key) value).1 = (u.insert key value).1 ∧
      (t.insert (some key) value).2.Forgets (u.insert key value).2 := by
  have hget := h.get key
  refine ⟨?_, fun k => ?_⟩
  · simp only [BlockTable.insert, StlHashtable.insert_fst, hget, Option.isNone_map]
  · simp only [BlockTable.insert, StlHashtable.find_insert, hget]
    split_ifs with hk
    · cases t.table.get key <;> rfl
    · exact h k

theorem Forgets.update {u : StlHashtable V} (h : t.Forgets u) (key : Str) (value : V) :
    (t.update key value).1 = (u.update key value).1 ∧
      (t.update key value).2.Forgets (u.update key value).2 := by
  have hget := h.get key
  cases hkey : t.table.get key with
  | none =>
    rw [hkey, Option.map_none] at hget
    simp only [BlockTable.update, hkey, StlHashtable.update_of_get_none hget, true_and]
    exact h
  | some e =>
    obtain ⟨block, old⟩ := e
    rw [hkey, Option.map_some] at hget
    simp only [BlockTable.update, hkey, StlHashtable.update_fst, hget, true_and]
    intro k
    have hfind : t.table.find (.wrap key) = some (block, old) := hkey
    simp only [StlHashtable.find_update, hget, UnorderedMap.find_assign, hfind]
    split_ifs with hk
    · rfl
    · exact h k

theorem Forgets.remove {u : StlHashtable V} (h : t.Forgets u) (key : Str) :
    (t.remove key).1 = (u.remove key).1 ∧ (t.remove key).2.Forgets (u.remove key).2 := by
  rw [StlHashtable.remove_fst, h.get]
  refine ⟨?_, fun k => ?_⟩
  · cases hkey : t.table.get key with
    | none => rw [remove_of_get_none hkey, Option.map_none]
    | some e => rw [remove_of_get_some hkey, Option.map_some]
  · rw [StlHashtable.find_remove]
    cases hkey : t.table.get key with
    | none =>
      rw [remove_of_get_none hkey]
      split_ifs with hk
      · rw [hk, show t.table.find (.wrap key) = none from hkey, Option.map_none]
      · exact h k
    | some e =>
      rw [remove_of_get_some hkey, UnorderedMap.find_erase]
      split_ifs with hk
      · rfl
      · exact h k

/-- A call returns what it returns without the blocks. -/
theorem Forgets.step {u : StlHashtable V} (h : t.Forgets u) (op : TableOp V) :
    (t.step op).1 = (op.apply u).1 ∧ (t.step op).2.Forgets (op.apply u).2 := by
  cases op with
  | insert key value =>
    cases key with
    | none => exact ⟨rfl, h⟩
    | some key => exact (h.insert key value).imp_left (congrArg _)
  | update key value => exact (h.update key value).imp_left (congrArg _)
  | remove key => exact (h.remove key).imp_left (congrArg _)

/-- A sequence of calls returns what it returns without the blocks. -/
theorem Forgets.run {u : StlHashtable V} (h : t.Forgets u) (ops : List (TableOp V)) :
    (t.run ops).1 = (TableOp.runAll u ops).1 ∧
      (t.run ops).2.Forgets (TableOp.runAll u ops).2 := by
  induction ops generalizing t u with
  | nil => exact ⟨rfl, h⟩
  | cons op ops ih =>
    obtain ⟨hresult, hstep⟩ := h.step op
    obtain ⟨hresults, hrun⟩ := ih hstep
    exact ⟨congrArg₂ List.cons hresult hresults, hrun⟩

theorem results_run (ops : List (TableOp V)) :
    ((empty : BlockTable V).run ops).1 = (TableOp.runAll .empty ops).1 :=
  (Forgets.run (fun _ => rfl) ops).1

/-! ### What does not always hold -/

theorem keysOwned_empty : (empty : BlockTable V).KeysOwned :=
  { sound_empty with
    live_iff := fun b => by
      constructor
      · intro h
        cases h
      · rintro ⟨k, value, h⟩
        cases h }

/-- `Insert` of a new key: the copy is the block of the new entry. -/
theorem KeysOwned.insert (h : t.KeysOwned) {key : Str} (hkey : t.table.get key = none)
    (value : V) : (t.insert (some key) value).2.KeysOwned := by
  refine { h.toSound.insert (some key) value with live_iff := fun b => ?_ }
  obtain ⟨-, hkeys, hfind⟩ := insert_of_get_none hkey value
  rw [hkeys, Heap.get_alloc]
  constructor
  · intro hb
    split_ifs at hb with hnext
    · exact ⟨.wrap key, value, by rw [hfind, if_pos rfl, hnext]⟩
    · obtain ⟨k, v, hv⟩ := (h.live_iff b).1 hb
      refine ⟨k, v, ?_⟩
      rw [hfind, if_neg, hv]
      rintro rfl
      cases hkey.symm.trans hv
  · rintro ⟨k, v, hv⟩
    rw [hfind] at hv
    split_ifs at hv with hk
    · cases hv
      rw [if_pos rfl, Option.isSome_some]
    · rw [← Heap.get_alloc, Heap.get_alloc_of_some (h.chars k b ⟨v, hv⟩), Option.isSome_some]

theorem KeysOwned.update (h : t.KeysOwned) (key : Str) (value : V) :
    (t.update key value).2.KeysOwned := by
  refine { h.toSound.update key value with live_iff := fun b => ?_ }
  simp only [(keys_update t key value).1, hasBlock_update]
  exact h.live_iff b

theorem KeysOwned.remove (h : t.KeysOwned) (key : Str) : (t.remove key).2.KeysOwned := by
  refine { h.toSound.remove key with live_iff := fun b => ?_ }
  cases hkey : t.table.get key with
  | none =>
    rw [remove_of_get_none hkey]
    exact h.live_iff b
  | some e =>
    obtain ⟨block, old⟩ := e
    have hblock : t.HasBlock (.wrap key) block := ⟨old, hkey⟩
    simp only [hasBlock_remove hkey]
    simp only [remove_of_get_some hkey, Heap.get_free]
    constructor
    · intro hb
      split_ifs at hb with hne
      · cases hb
      obtain ⟨k, hk⟩ := (h.live_iff b).1 hb
      refine ⟨k, ?_, hk⟩
      rintro rfl
      obtain ⟨v, hv⟩ := hk
      cases hv.symm.trans hkey
      exact hne rfl
    · rintro ⟨k, hne, hk⟩
      have hb : b ≠ block := fun hb => hne (h.block_inj k _ block (hb ▸ hk) hblock)
      rw [if_neg hb, h.chars k b hk, Option.isSome_some]

/-- A call keeps the blocks owned, unless it inserts a key that is present. -/
theorem KeysOwned.step (h : t.KeysOwned) (op : TableOp V)
    (hop : ∀ key value, op = .insert (some key) value → t.table.get key = none) :
    (t.step op).2.KeysOwned := by
  cases op with
  | insert key value =>
    cases key with
    | none => exact h
    | some key => exact h.insert (hop key value rfl) value
  | update key value => exact h.update key value
  | remove key => exact h.remove key

/-- The copy that a rejected `Insert` leaves behind belongs to no entry. -/
theorem KeysOwned.lost (h : t.KeysOwned) {key : Str} {e : ℕ × V}
    (hkey : t.table.get key = some e) (value : V) :
    ¬ (t.insert (some key) value).2.KeysOwned := fun h' => by
  rw [insert_of_get_some hkey] at h'
  have hlive : ((t.keys.alloc (cStr key)).2.get t.keys.next).isSome := by
    rw [Heap.get_alloc, if_pos rfl, Option.isSome_some]
  obtain ⟨k, hk⟩ := (h'.live_iff t.keys.next).1 hlive
  exact h.next_unused k hk

end BlockTable

open BlockTable

/-- **Who owns the keys.** Over a sequence of calls on a new hashtable, the live blocks are at every
point those of the keys of the entries, one each, and each block is released once and with its
entry, exactly if no `Insert` names a key that is present. -/
theorem keys_owned_iff {V : Type} (ops : List (TableOp V)) :
    (∀ history, history <+: ops → (after history).KeysOwned) ↔
      ∀ history key value, history ++ [.insert (some key) value] <+: ops →
        (after history).table.get key = none := by
  constructor
  · intro h history key value hpre
    by_contra hkey
    obtain ⟨e, hkey⟩ := Option.ne_none_iff_exists'.1 hkey
    have hbefore := h history ((List.prefix_append history _).trans hpre)
    have hafter := h _ hpre
    rw [after_concat] at hafter
    exact hbefore.lost hkey value hafter
  · intro h history
    induction history using List.reverseRecOn with
    | nil => exact fun _ => keysOwned_empty
    | append_singleton history op ih =>
      intro hpre
      rw [after_concat]
      refine (ih ((List.prefix_append history _).trans hpre)).step op ?_
      rintro key value rfl
      exact h history key value hpre

/-- The second `Insert` of one key loses its copy. -/
theorem keys_not_owned :
    ¬ ∀ history, history <+: [.insert (some ['k']) 1, .insert (some ['k']) 2] →
      (after history : BlockTable ℕ).KeysOwned := fun h => by
  have hkey : (after [.insert (some ['k']) 1]).table.get ['k'] = some (0, 1) := by decide
  exact (h [.insert (some ['k']) 1] (List.prefix_append _ _)).lost hkey 2 (h _ List.prefix_rfl)

end YcsbC
