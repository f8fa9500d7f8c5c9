import Mathlib.Data.List.Basic
import Mathlib.Data.List.Perm.Basic
import Mathlib.Logic.Function.Basic
import Mathlib.Tactic.Common

/-!
# Tables of chains

A hash table with chaining is a list of lists. What an operation on one chain does to the entries of
the whole table is stated up to their order. Entries whose keys differ are those of a map.

## Main definitions

* `Denotes`: entries are those of a map.

## Main results

* `flatten_modify_perm`: a chain is changed.
* `flatten_link_perm`: an entry is linked into a chain.
* `Denotes.link`, `Denotes.unlink`: an entry is put in and taken out.
-/

namespace YcsbC

variable {α : Type*} {t : List (List α)} {i : ℕ}

theorem exists_modify_eq (hi : i < t.length) :
    ∃ front back, t = front ++ t[i] :: back ∧ ∀ f, t.modify i f = front ++ f t[i] :: back := by
  induction t generalizing i with
  | nil => exact absurd hi (Nat.not_lt_zero i)
  | cons c t ih =>
    cases i with
    | zero => exact ⟨[], t, rfl, fun f => rfl⟩
    | succ i =>
      obtain ⟨front, back, ht, hmodify⟩ := ih (Nat.lt_of_succ_lt_succ hi)
      refine ⟨c :: front, back, congrArg (c :: ·) ht, fun f => ?_⟩
      rw [List.modify_succ_cons, hmodify]
      rfl

/-- What is taken out of a chain and put into it, is so for the table. -/
theorem flatten_modify_perm (hi : i < t.length) {f : List α → List α} {x y : List α}
    (h : (x ++ t[i]).Perm (y ++ f t[i])) :
    (x ++ t.flatten).Perm (y ++ (t.modify i f).flatten) := by
  obtain ⟨front, back, ht, hmodify⟩ := exists_modify_eq hi
  have hmove : ∀ z c : List α, (z ++ (front ++ c :: back).flatten).Perm
      (z ++ c ++ (front.flatten ++ back.flatten)) := fun z c => by
    rw [List.flatten_append, List.flatten_cons, List.append_assoc]
    exact List.Perm.append_left z (List.perm_append_comm_assoc ..)
  calc x ++ t.flatten
      = x ++ (front ++ t[i] :: back).flatten := by rw [← ht]
    _ |>.Perm (x ++ t[i] ++ (front.flatten ++ back.flatten)) := hmove x t[i]
    _ |>.Perm (y ++ f t[i] ++ (front.flatten ++ back.flatten)) := h.append_right _
    _ |>.Perm (y ++ (front ++ f t[i] :: back).flatten) := (hmove y (f t[i])).symm
    _ = y ++ (t.modify i f).flatten := by rw [hmodify]

/-- An entry is linked at the front of a chain. -/
theorem flatten_link_perm (hi : i < t.length) (a : α) :
    ((t.modify i (a :: ·)).flatten).Perm (a :: t.flatten) :=
  (flatten_modify_perm (x := [a]) (y := []) hi (.refl _)).symm

/-! ### Maps -/

variable {K V : Type*} {entries entries' : List (K × V)} {m : K → Option V} {key : K} {val : V}

/-- The entries are those of a map. -/
def Denotes (entries : List (K × V)) (m : K → Option V) : Prop :=
  ∀ key val, m key = some val ↔ (key, val) ∈ entries

namespace Denotes

theorem nil : Denotes ([] : List (K × V)) fun _ => none := fun _ _ => ⟨nofun, nofun⟩

theorem isSome_iff (h : Denotes entries m) : (m key).isSome ↔ ∃ val, (key, val) ∈ entries := by
  rw [Option.isSome_iff_exists]
  exact exists_congr fun val => h key val

theorem perm (h : Denotes entries m) (hperm : entries'.Perm entries) : Denotes entries' m :=
  fun key val => (h key val).trans hperm.mem_iff.symm

variable [DecidableEq K]

/-- An entry is put in for a new key. -/
theorem link (h : Denotes entries m) (hnone : m key = none)
    (hperm : entries'.Perm ((key, val) :: entries)) :
    Denotes entries' (Function.update m key (some val)) := by
  intro k v
  rw [hperm.mem_iff, List.mem_cons, ← h k v]
  by_cases hkey : k = key
  · obtain rfl := hkey
    rw [Function.update_self, hnone]
    constructor
    · rintro ⟨rfl⟩
      exact .inl rfl
    · rintro (⟨-, rfl⟩ | hsome)
      · rfl
      · cases hsome
  · rw [Function.update_of_ne hkey]
    exact ⟨.inr, Or.rec (fun heq => absurd (congrArg Prod.fst heq) hkey) id⟩

/-- The entry of a key is taken out. -/
theorem unlink (h : Denotes entries m) (hnodup : (entries.map Prod.fst).Nodup)
    (hperm : entries.Perm ((key, val) :: entries')) :
    Denotes entries' (Function.update m key none) := by
  have hkeys := List.nodup_cons.1 ((hperm.map Prod.fst).nodup_iff.1 hnodup)
  intro k v
  by_cases hkey : k = key
  · obtain rfl := hkey
    rw [Function.update_self]
    exact ⟨nofun, fun hmem => absurd (List.mem_map_of_mem hmem) hkeys.1⟩
  · rw [Function.update_of_ne hkey, h k v, hperm.mem_iff, List.mem_cons]
    exact ⟨Or.rec (fun heq => absurd (congrArg Prod.fst heq) hkey) id, .inr⟩

end Denotes

end YcsbC
