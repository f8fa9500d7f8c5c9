import Mathlib.Data.Finset.Card
import Mathlib.Data.List.AList
import Mathlib.Data.List.TakeWhile

/-!
# Hash maps with an unspecified iteration order

A hash map holds one value for each of its keys and can be iterated. The order of an iteration
depends on the keys and on everything that happened to the map before, in a way that its users
may not rely on. Here it is given by a parameter, an `IterationOrder`, which arranges the keys of
a map and sees the whole history of insertions and erasures.

## Main definitions

* `UnorderedMap`: a finite map together with its history.
* `UnorderedMap.find`, `insert`, `assign`, `erase`: look a key up, insert a new entry, overwrite
  the value of an entry, erase an entry.
* `UnorderedMap.iterate`: the entries in the order of iteration.

## Main results

* `UnorderedMap.find_insert`, `find_assign`, `find_erase`: the map after each operation.
* `UnorderedMap.mem_iterate`, `UnorderedMap.nodup_iterate`: an iteration visits every entry, and
  visits no key twice.
* `UnorderedMap.drop_iterateFrom`: an iteration can be interrupted and started again from the next
  key.
-/

namespace YcsbC

/-- What changed the set of keys of a map. -/
inductive MapEvent (K : Type) where
  | inserted (k : K)
  | erased (k : K)

/-- How the iteration of a map orders its keys, after a history of insertions and erasures. -/
structure IterationOrder (K : Type) where
  arrange : List (MapEvent K) → List K → List K
  arrange_perm : ∀ history keys, (arrange history keys).Perm keys

/-- The iteration that visits the newest key first. -/
def IterationOrder.newestFirst (K : Type) : IterationOrder K :=
  ⟨fun _ keys => keys, fun _ _ => .refl _⟩

/-- A finite map from `K` to `V` with the history of its insertions and erasures, the latest
first. -/
structure UnorderedMap (K V : Type) where
  entries : AList fun _ : K => V
  history : List (MapEvent K)

namespace UnorderedMap

variable {K V : Type}

/-- The map without entries. -/
def empty : UnorderedMap K V := ⟨∅, []⟩

/-- The number of entries. -/
def size (m : UnorderedMap K V) : ℕ := m.entries.keys.length

variable [DecidableEq K]

/-- The value of a key, if the key is present. -/
def find (m : UnorderedMap K V) (k : K) : Option V := m.entries.lookup k

/-- Insert an entry for a new key; a key that is present keeps its value. Tells whether the key
was new. -/
def insert (m : UnorderedMap K V) (k : K) (v : V) : Bool × UnorderedMap K V :=
  if (m.find k).isSome then (false, m)
  else (true, ⟨m.entries.insert k v, .inserted k :: m.history⟩)

/-- Overwrite the value of a key that is present. -/
def assign (m : UnorderedMap K V) (k : K) (v : V) : UnorderedMap K V :=
  ⟨m.entries.replace k v, m.history⟩

/-- Erase the entry of a key. -/
def erase (m : UnorderedMap K V) (k : K) : UnorderedMap K V :=
  ⟨m.entries.erase k, .erased k :: m.history⟩

/-- The entries in the order of iteration. -/
def iterate (order : IterationOrder K) (m : UnorderedMap K V) : List (K × V) :=
  (order.arrange m.history m.entries.keys).filterMap fun k => (m.find k).map (k, ·)

/-- The entries from that of the key `k` on, in the order of iteration. -/
def iterateFrom (order : IterationOrder K) (m : UnorderedMap K V) (k : K) : List (K × V) :=
  (m.iterate order).dropWhile fun e => e.1 ≠ k

/-! ### Looking keys up -/

@[simp] theorem find_empty (k : K) : (empty : UnorderedMap K V).find k = none :=
  AList.lookup_empty k

theorem mem_keys_iff (m : UnorderedMap K V) (k : K) :
    k ∈ m.entries.keys ↔ ∃ v, m.find k = some v := by
  rw [← AList.mem_keys, ← AList.lookup_isSome, Option.isSome_iff_exists]
  rfl

theorem insert_of_find_some {m : UnorderedMap K V} {k : K} {v : V} (h : m.find k = some v)
    (w : V) : m.insert k w = (false, m) := by
  simp [insert, h]

theorem insert_of_find_none {m : UnorderedMap K V} {k : K} (h : m.find k = none) (w : V) :
    m.insert k w = (true, ⟨m.entries.insert k w, .inserted k :: m.history⟩) := by
  simp [insert, h]

/-- An insertion adds its entry when the key is new and changes nothing else. -/
theorem find_insert (m : UnorderedMap K V) (k : K) (v : V) (k' : K) :
    (m.insert k v).2.find k' = if k' = k then some ((m.find k).getD v) else m.find k' := by
  cases h : m.find k with
  | some w =>
    rw [insert_of_find_some h]
    split_ifs with hk
    · rw [hk, h, Option.getD_some]
    · rfl
  | none =>
    rw [insert_of_find_none h]
    split_ifs with hk
    · rw [hk]
      exact AList.lookup_insert _
    · exact AList.lookup_insert_ne hk

theorem find_erase (m : UnorderedMap K V) (k k' : K) :
    (m.erase k).find k' = if k' = k then none else m.find k' := by
  split_ifs with hk
  · rw [hk]
    exact AList.lookup_erase k m.entries
  · exact AList.lookup_erase_ne hk

/-- Replacing in an association list, seen through lookups. -/
private theorem dlookup_kreplace (k : K) (v : V) (k' : K) :
    ∀ l : List (Sigma fun _ : K => V), (l.kreplace k v).dlookup k' =
      if k' = k then (l.dlookup k).map fun _ => v else l.dlookup k'
  | [] => by simp [List.kreplace]
  | ⟨a, b⟩ :: l => by
    have ih := dlookup_kreplace k v k' l
    by_cases ha : k = a
    · subst ha
      rw [List.kreplace, List.lookmap_cons_some _ _ (b := ⟨k, v⟩) (by simp)]
      by_cases hk : k' = k
      · subst hk
        simp
      · simp [hk, List.dlookup_cons_ne]
    · rw [List.kreplace, List.lookmap_cons_none _ _ (by simp [ha])]
      by_cases hk : k' = a
      · subst hk
        simp [Ne.symm ha]
      · have hskip : ∀ m : List (Sigma fun _ : K => V),
            List.dlookup k' (⟨a, b⟩ :: m) = List.dlookup k' m := fun m =>
          List.dlookup_cons_ne m _ hk
        rw [hskip, hskip, List.dlookup_cons_ne l ⟨a, b⟩ ha]
        exact ih

theorem find_assign (m : UnorderedMap K V) (k : K) (v : V) (k' : K) :
    (m.assign k v).find k' = if k' = k then (m.find k).map fun _ => v else m.find k' :=
  dlookup_kreplace k v k' m.entries.entries

/-! ### Sizes -/

theorem size_insert_of_find_none {m : UnorderedMap K V} {k : K} (h : m.find k = none) (v : V) :
    (m.insert k v).2.size = m.size + 1 := by
  have hk : k ∉ m.entries.keys := by simp [mem_keys_iff, h]
  simp [insert_of_find_none h, size, AList.keys_insert, List.erase_of_not_mem hk]

theorem size_eq_card {m : UnorderedMap K V} {keys : Finset K}
    (h : ∀ k, (m.find k).isSome ↔ k ∈ keys) : m.size = keys.card := by
  have hkeys : m.entries.keys.toFinset = keys := by
    ext k
    rw [List.mem_toFinset, mem_keys_iff, ← Option.isSome_iff_exists, h]
  rw [size, ← hkeys, List.toFinset_card_of_nodup m.entries.keys_nodup]

/-! ### Iterating -/

/-- An iteration visits exactly the entries of the map. -/
@[simp] theorem mem_iterate (order : IterationOrder K) (m : UnorderedMap K V) (k : K) (v : V) :
    (k, v) ∈ m.iterate order ↔ m.find k = some v := by
  have hperm := order.arrange_perm m.history m.entries.keys
  simp only [iterate, List.mem_filterMap, Option.map_eq_some_iff, Prod.mk.injEq, hperm.mem_iff,
    mem_keys_iff]
  constructor
  · rintro ⟨_, _, w, hw, rfl, rfl⟩
    exact hw
  · intro h
    exact ⟨k, ⟨v, h⟩, v, h, rfl, rfl⟩

/-- The keys visited by an iteration are the keys of the map in the order of the iteration. -/
theorem keys_iterate (order : IterationOrder K) (m : UnorderedMap K V) :
    (m.iterate order).map Prod.fst = order.arrange m.history m.entries.keys := by
  have hmem : ∀ k ∈ order.arrange m.history m.entries.keys, ∃ v, m.find k = some v := fun k hk =>
    (m.mem_keys_iff k).1 ((order.arrange_perm m.history m.entries.keys).mem_iff.1 hk)
  rw [iterate]
  generalize order.arrange m.history m.entries.keys = keys at hmem
  induction keys with
  | nil => rfl
  | cons k keys ih =>
    obtain ⟨v, hv⟩ := hmem k List.mem_cons_self
    simp [hv, ih fun k' hk' => hmem k' (List.mem_cons_of_mem _ hk')]

theorem nodup_iterate (order : IterationOrder K) (m : UnorderedMap K V) :
    ((m.iterate order).map Prod.fst).Nodup := by
  rw [keys_iterate]
  exact (order.arrange_perm m.history m.entries.keys).nodup_iff.2 m.entries.keys_nodup

/-! ### Iterating from a key -/

/-- In a list without a key twice, the entry at which a split starts is found by its key. -/
theorem dropWhile_append_cons {e : K × V} (before : List (K × V)) {after : List (K × V)}
    (hn : ((before ++ e :: after).map Prod.fst).Nodup) :
    ((before ++ e :: after).dropWhile fun e' => e'.1 ≠ e.1) = e :: after := by
  rw [List.map_append, List.map_cons, List.nodup_append] at hn
  have hbefore : ∀ e' ∈ before, decide (e'.1 ≠ e.1) = true := fun e' he' =>
    decide_eq_true (hn.2.2 _ (List.mem_map_of_mem he') _ List.mem_cons_self)
  rw [List.dropWhile_append_of_pos hbefore, List.dropWhile_cons_of_neg (by simp)]

theorem iterateFrom_eq_append (order : IterationOrder K) (m : UnorderedMap K V) (k : K) :
    ∃ before, m.iterate order = before ++ m.iterateFrom order k :=
  ⟨_, List.takeWhile_append_dropWhile.symm⟩

theorem iterateFrom_of_find_none (order : IterationOrder K) {m : UnorderedMap K V} {k : K}
    (h : m.find k = none) : m.iterateFrom order k = [] := by
  refine List.dropWhile_eq_nil_iff.2 fun e he => decide_eq_true ?_
  rintro rfl
  rw [(mem_iterate order m e.1 e.2).1 he] at h
  cases h

theorem iterateFrom_of_find_some (order : IterationOrder K) {m : UnorderedMap K V} {k : K} {v : V}
    (h : m.find k = some v) : ∃ after, m.iterateFrom order k = (k, v) :: after := by
  obtain ⟨before, after, heq⟩ := List.append_of_mem ((mem_iterate order m k v).2 h)
  have hn := m.nodup_iterate order
  rw [heq] at hn
  exact ⟨after, by rw [iterateFrom, heq]; exact dropWhile_append_cons before hn⟩

theorem mem_iterate_of_mem_iterateFrom {order : IterationOrder K} {m : UnorderedMap K V} {k : K}
    {e : K × V} (h : e ∈ m.iterateFrom order k) : m.find e.1 = some e.2 :=
  (mem_iterate order m e.1 e.2).1 ((List.dropWhile_sublist _).subset h)

theorem nodup_iterateFrom (order : IterationOrder K) (m : UnorderedMap K V) (k : K) :
    ((m.iterateFrom order k).map Prod.fst).Nodup :=
  (m.nodup_iterate order).sublist ((List.dropWhile_sublist _).map Prod.fst)

/-- An iteration can be interrupted and started again from the key that comes next. -/
theorem drop_iterateFrom {order : IterationOrder K} {m : UnorderedMap K V} {k : K} {i : ℕ}
    {e : K × V} (h : (m.iterateFrom order k)[i]? = some e) :
    (m.iterateFrom order k).drop i = m.iterateFrom order e.1 := by
  obtain ⟨before, heq⟩ := m.iterateFrom_eq_append order k
  obtain ⟨hi, hget⟩ := List.getElem?_eq_some_iff.1 h
  have hdrop := List.drop_eq_getElem_cons hi
  rw [hget] at hdrop
  have hsplit : m.iterate order = (before ++ (m.iterateFrom order k).take i) ++
      e :: (m.iterateFrom order k).drop (i + 1) := by
    rw [List.append_assoc, ← hdrop, List.take_append_drop, heq]
  have hn := m.nodup_iterate order
  rw [hsplit] at hn
  have hfrom := dropWhile_append_cons _ hn
  rw [← hsplit] at hfrom
  exact hdrop.trans hfrom.symm

end UnorderedMap

end YcsbC
