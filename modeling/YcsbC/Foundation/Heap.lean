import Mathlib.Logic.Function.Basic
import Mathlib.Tactic.Common

/-!
# Blocks that are allocated and released

A heap of blocks of one type. An allocation hands out an address that was never used before, so
an address names one block for ever and a use of it after its release is visible.

## Main definitions

* `Heap`: the live blocks, with the first address not yet used.
* `Heap.alloc`, `Heap.free`, `Heap.write`: allocate, release and change a block.
* `Heap.Released`: the addresses of the blocks that have been released.
-/

namespace YcsbC

/-- A heap of blocks of type `α`: the live blocks by address, and the first address not yet
used. -/
structure Heap (α : Type) where
  get : ℕ → Option α
  next : ℕ
  get_of_next_le : ∀ p, next ≤ p → get p = none

namespace Heap

variable {α : Type}

/-- The heap without blocks. -/
def empty : Heap α := ⟨fun _ => none, 0, fun _ _ => rfl⟩

/-- Allocate a block; its address is fresh. -/
def alloc (h : Heap α) (a : α) : ℕ × Heap α :=
  (h.next, ⟨Function.update h.get h.next (some a), h.next + 1, fun p hp => by
    rw [Function.update_of_ne (by omega), h.get_of_next_le p (by omega)]⟩)

/-- Release a block. -/
def free (h : Heap α) (p : ℕ) : Heap α :=
  ⟨Function.update h.get p none, h.next, fun q hq => by
    by_cases hqp : q = p
    · rw [hqp, Function.update_self]
    · rw [Function.update_of_ne hqp, h.get_of_next_le q hq]⟩

/-- Change a live block; without a block at the address nothing happens. -/
def write (h : Heap α) (p : ℕ) (a : α) : Heap α :=
  ⟨Function.update h.get p ((h.get p).map fun _ => a), h.next, fun q hq => by
    by_cases hqp : q = p
    · rw [hqp, Function.update_self, ← hqp, h.get_of_next_le q hq, Option.map_none]
    · rw [Function.update_of_ne hqp, h.get_of_next_le q hq]⟩

@[simp] theorem get_empty (p : ℕ) : (empty : Heap α).get p = none := rfl

theorem get_next (h : Heap α) : h.get h.next = none := h.get_of_next_le _ (Nat.le_refl _)

theorem get_alloc (h : Heap α) (a : α) (p : ℕ) :
    (h.alloc a).2.get p = if p = h.next then some a else h.get p :=
  Function.update_apply ..

theorem get_free (h : Heap α) (p q : ℕ) :
    (h.free p).get q = if q = p then none else h.get q :=
  Function.update_apply ..

theorem get_write (h : Heap α) {p : ℕ} {b : α} (hb : h.get p = some b) (a : α) (q : ℕ) :
    (h.write p a).get q = if q = p then some a else h.get q := by
  simp only [write, hb, Option.map_some]
  exact Function.update_apply ..

/-- Writing what is there changes nothing. -/
theorem write_self {h : Heap α} {p : ℕ} {a : α} (hp : h.get p = some a) : h.write p a = h := by
  obtain ⟨get, next, hnext⟩ := h
  have hp' : get p = some a := hp
  simp only [write, hp', Option.map_some, mk.injEq, and_true]
  rw [← hp', Function.update_eq_self]

@[simp] theorem alloc_fst (h : Heap α) (a : α) : (h.alloc a).1 = h.next := rfl

/-- A live address is not the next one. -/
theorem ne_next {h : Heap α} {p : ℕ} {a : α} (hp : h.get p = some a) : p ≠ h.next := by
  rintro rfl
  rw [get_next] at hp
  cases hp

/-- An allocation keeps the live blocks. -/
theorem get_alloc_of_some {h : Heap α} {p : ℕ} {b : α} (hp : h.get p = some b) (a : α) :
    (h.alloc a).2.get p = some b := by
  rw [get_alloc, if_neg (ne_next hp), hp]

/-! ### Released blocks -/

/-- The address was handed out and its block has been released. -/
def Released (h : Heap α) (p : ℕ) : Prop := p < h.next ∧ h.get p = none

theorem released_free {h : Heap α} {p : ℕ} {a : α} (hp : h.get p = some a) :
    (h.free p).Released p := by
  refine ⟨?_, by rw [get_free, if_pos rfl]⟩
  show p < h.next
  by_contra hle
  rw [h.get_of_next_le p (by omega)] at hp
  cases hp

theorem Released.alloc {h : Heap α} {p : ℕ} (hp : h.Released p) (a : α) :
    (h.alloc a).2.Released p := by
  obtain ⟨hlt, hget⟩ := hp
  refine ⟨?_, ?_⟩
  · show p < h.next + 1
    omega
  · rw [get_alloc, if_neg (by omega), hget]

theorem Released.free {h : Heap α} {p : ℕ} (hp : h.Released p) (q : ℕ) :
    (h.free q).Released p := by
  refine ⟨hp.1, ?_⟩
  rw [get_free, hp.2, ite_self]

end Heap

end YcsbC
