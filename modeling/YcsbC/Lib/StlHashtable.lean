import YcsbC.Foundation.UnorderedMap
import YcsbC.Lib.VmpString

/-!
# The hashtable of the in-memory store

`vmp::StlHashtable` wraps a `std::unordered_map` from `vmp::String` keys to pointers and speaks C
strings and `NULL`s to its callers (`lib/stl_hashtable.h`). A missing entry is `none` here. The
map compares keys by `String::operator==`, which is equality (`VmpString.beq_iff`). In
`LockStlHashtable` every one of these functions runs under the mutex of the table
(`lib/lock_stl_hashtable.h`), so each is one atomic step of a client.

## Main definitions

* `StlHashtable`, `StlHashtable.get`, `insert`, `update`, `remove`, `entries`.

## Main results

* `StlHashtable.find_insert`, `find_update`, `find_remove`: the table after each operation.
-/

namespace YcsbC

/-- `vmp::StlHashtable<V>`, where `V` is a pointer type without its `NULL`. -/
abbrev StlHashtable (V : Type) := UnorderedMap VmpString V

namespace StlHashtable

variable {V : Type}

/-- `StlHashtable::Get`. -/
def get (t : StlHashtable V) (key : Str) : Option V := t.find (.wrap key)

/-- `StlHashtable::Insert`: `false`, and no change, when the key is present. -/
def insert (t : StlHashtable V) (key : Str) (value : V) : Bool × StlHashtable V :=
  UnorderedMap.insert t (.wrap key) value

/-- `StlHashtable::Update`: the old value, or `NULL` and no change when the key is missing. -/
def update (t : StlHashtable V) (key : Str) (value : V) : Option V × StlHashtable V :=
  match t.find (.wrap key) with
  | none => (none, t)
  | some old => (some old, t.assign (.wrap key) value)

/-- `StlHashtable::Remove`: the removed value, or `NULL` and no change. -/
def remove (t : StlHashtable V) (key : Str) : Option V × StlHashtable V :=
  match t.find (.wrap key) with
  | none => (none, t)
  | some old => (some old, t.erase (.wrap key))

/-- `StlHashtable::Entries`: up to `n` entries in the order of iteration, from the entry of `key`
on, and none when `key` is missing; without a `key`, from the first entry on. The default `n` is
the largest `size_t`, which no table reaches: `none`. -/
def entries (order : IterationOrder VmpString) (t : StlHashtable V) (key : Option Str)
    (n : Option ℕ) : List (Str × V) :=
  let all := t.iterate order
  let tail : List (VmpString × V) := match key with
    | none => all
    | some key => all.dropWhile fun e => e.1 ≠ VmpString.wrap key
  let pairs := match n with
    | none => tail
    | some n => tail.take n
  pairs.map fun e => (e.1.value, e.2)

/-! ### The table after each operation -/

theorem insert_fst (t : StlHashtable V) (key : Str) (value : V) :
    (t.insert key value).1 = (t.get key).isNone := by
  simp only [insert, UnorderedMap.insert, get]
  cases t.find (.wrap key) <;> rfl

theorem insert_of_get_some {t : StlHashtable V} {key : Str} {old : V} (h : t.get key = some old)
    (value : V) : t.insert key value = (false, t) :=
  UnorderedMap.insert_of_find_some h value

theorem find_insert (t : StlHashtable V) (key : Str) (value : V) (k : VmpString) :
    (t.insert key value).2.find k =
      if k = .wrap key then some ((t.get key).getD value) else t.find k :=
  UnorderedMap.find_insert t (.wrap key) value k

theorem update_of_get_none {t : StlHashtable V} {key : Str} (h : t.get key = none) (value : V) :
    t.update key value = (none, t) := by
  rw [get] at h
  simp only [update, h]

theorem update_fst (t : StlHashtable V) (key : Str) (value : V) :
    (t.update key value).1 = t.get key := by
  simp only [update, get]
  cases t.find (.wrap key) <;> rfl

theorem find_update (t : StlHashtable V) (key : Str) (value : V) (k : VmpString) :
    (t.update key value).2.find k =
      if k = .wrap key then (t.get key).map fun _ => value else t.find k := by
  cases h : t.find (.wrap key) with
  | none =>
    simp only [update, get, h, Option.map_none]
    split_ifs with hk
    · rw [hk, h]
    · rfl
  | some old => simp only [update, get, h, UnorderedMap.find_assign]

theorem remove_fst (t : StlHashtable V) (key : Str) : (t.remove key).1 = t.get key := by
  simp only [remove, get]
  cases t.find (.wrap key) <;> rfl

theorem find_remove (t : StlHashtable V) (key : Str) (k : VmpString) :
    (t.remove key).2.find k = if k = .wrap key then none else t.find k := by
  cases h : t.find (.wrap key) with
  | none =>
    simp only [remove, h]
    split_ifs with hk
    · rw [hk, h]
    · rfl
  | some old => simp only [remove, h, UnorderedMap.find_erase]

/-! ### Entries -/

/-- Without bounds, `Entries` returns the whole table. -/
theorem entries_all (order : IterationOrder VmpString) (t : StlHashtable V) :
    t.entries order none none = (t.iterate order).map fun e => (e.1.value, e.2) :=
  rfl

theorem mem_entries_all (order : IterationOrder VmpString) (t : StlHashtable V) (key : Str)
    (value : V) :
    (key, value) ∈ t.entries order none none ↔ NulFree key ∧ t.get key = some value := by
  simp only [entries_all, List.mem_map, Prod.mk.injEq, get]
  constructor
  · rintro ⟨⟨k, v⟩, hmem, rfl, rfl⟩
    rw [UnorderedMap.mem_iterate] at hmem
    exact ⟨k.value_nulFree, by simpa using hmem⟩
  · rintro ⟨hkey, hget⟩
    exact ⟨(.wrap key, value), (UnorderedMap.mem_iterate ..).2 hget, by simp [cStr_of_nulFree hkey],
      rfl⟩

/-- `Entries` only returns entries of the table. -/
theorem get_of_mem_entries {order : IterationOrder VmpString} {t : StlHashtable V}
    {start : Option Str} {n : Option ℕ} {key : Str} {value : V}
    (h : (key, value) ∈ t.entries order start n) : t.get key = some value := by
  have hsub : (t.entries order start n).Sublist (t.entries order none none) := by
    refine List.Sublist.map _ ?_
    have hstart : (match start with
        | none => t.iterate order
        | some key => (t.iterate order).dropWhile fun e => e.1 ≠ VmpString.wrap key).Sublist
          (t.iterate order) := by
      cases start with
      | none => exact .refl _
      | some start => exact List.dropWhile_sublist _
    refine List.Sublist.trans ?_ hstart
    cases n with
    | none => exact .refl _
    | some n => exact List.take_sublist ..
  exact ((mem_entries_all order t key value).1 (hsub.subset h)).2

/-- No key occurs twice among the entries of a table. -/
theorem nodup_entries_all (order : IterationOrder VmpString) (t : StlHashtable V) :
    ((t.entries order none none).map Prod.fst).Nodup := by
  have h := t.nodup_iterate order
  rw [entries_all, List.map_map]
  have hcomp : (Prod.fst ∘ fun e : VmpString × V => (e.1.value, e.2)) =
      VmpString.value ∘ Prod.fst := rfl
  rw [hcomp, ← List.map_map]
  exact h.map fun _ _ => VmpString.ext_value

/-- No value occurs twice among the entries of a table that has each value once. -/
theorem nodup_values_entries_all (order : IterationOrder VmpString) {t : StlHashtable V}
    (hinj : ∀ k k' v, t.find k = some v → t.find k' = some v → k = k') :
    ((t.entries order none none).map Prod.snd).Nodup := by
  have hkeys := nodup_entries_all order t
  rw [List.Nodup, List.pairwise_map] at hkeys ⊢
  refine hkeys.imp_of_mem fun {e e'} he he' hne hvalue => hne ?_
  obtain ⟨hfree, hget⟩ := (mem_entries_all order t e.1 e.2).1 he
  obtain ⟨hfree', hget'⟩ := (mem_entries_all order t e'.1 e'.2).1 he'
  exact (VmpString.wrap_inj_of_nulFree hfree hfree').1 (hinj _ _ e.2 hget (hvalue ▸ hget'))

end StlHashtable

end YcsbC
