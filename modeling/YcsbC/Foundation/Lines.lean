import Mathlib.Data.List.DropRight

/-!
# Lines and their margins

A text is split into lines at each separator. A line is stripped of its margins: of the elements at
its two ends that satisfy a predicate.

## Main definitions

* `strip`: a list without its margins.
* `Stripped`: a list that has no margins.

## Main results

* `strip_append_append`: margins around a list without margins.
* `idxOf?_append_cons_self`: the first separator.
* `splitOn_eq_cons`: the first line of a text and the others.
* `splitOn_intercalate_concat`: lines that each end in a separator.
-/

namespace YcsbC

variable {α : Type*} {p : α → Bool} {l left right : List α}

/-- A list without the elements at its two ends that satisfy `p`. -/
def strip (p : α → Bool) (l : List α) : List α := (l.dropWhile p).rdropWhile p

/-- Neither the first nor the last element satisfies `p`. -/
structure Stripped (p : α → Bool) (l : List α) : Prop where
  head : ∀ c ∈ l.head?, p c = false
  last : ∀ c ∈ l.getLast?, p c = false

instance (p : α → Bool) (l : List α) : Decidable (Stripped p l) :=
  decidable_of_iff ((∀ c ∈ l.head?, p c = false) ∧ ∀ c ∈ l.getLast?, p c = false)
    ⟨fun h => ⟨h.1, h.2⟩, fun h => ⟨h.head, h.last⟩⟩

theorem Stripped.rdropWhile (h : Stripped p l) : l.rdropWhile p = l := by
  rw [List.rdropWhile_eq_self_iff]
  intro hne
  rw [h.last _ (List.getLast?_eq_getLast_of_ne_nil hne)]
  exact Bool.false_ne_true

theorem rdropWhile_append (hright : ∀ c ∈ right, p c) :
    (l ++ right).rdropWhile p = l.rdropWhile p := by
  rw [List.rdropWhile, List.reverse_append, List.dropWhile_append_of_pos, ← List.rdropWhile]
  exact fun c hc => hright c (List.mem_reverse.1 hc)

/-- The margins are taken away. -/
theorem strip_append_append (h : Stripped p l) (hleft : ∀ c ∈ left, p c)
    (hright : ∀ c ∈ right, p c) : strip p (left ++ (l ++ right)) = l := by
  rw [strip, List.dropWhile_append_of_pos hleft]
  cases l with
  | nil =>
    rw [List.nil_append, List.rdropWhile_eq_nil_iff]
    exact fun c hc => hright c (List.dropWhile_suffix _ |>.subset hc)
  | cons c l =>
    rw [List.cons_append, List.dropWhile_cons, h.head c rfl, if_neg Bool.false_ne_true,
      ← List.cons_append, rdropWhile_append hright, h.rdropWhile]

variable [DecidableEq α] {a : α} {lines : List (List α)}

/-- The first separator. -/
theorem idxOf?_append_cons_self {a : α} (h : a ∉ left) (right : List α) :
    (left ++ a :: right).idxOf? a = some left.length := by
  induction left with
  | nil => rw [List.nil_append, List.idxOf?_cons, if_pos (beq_self_eq_true a)]; rfl
  | cons c left ih =>
    obtain ⟨hc, hleft⟩ := List.ne_and_not_mem_of_not_mem_cons h
    rw [List.cons_append, List.idxOf?_cons, ih hleft, if_neg (by simpa using Ne.symm hc)]
    rfl

/-- The first line ends before the first separator; the other lines are those behind it. -/
theorem splitOn_eq_cons (a : α) (l : List α) :
    l.splitOn a = l.takeWhile (· ≠ a) ::
      match l.dropWhile (· ≠ a) with
      | [] => []
      | _ :: rest => rest.splitOn a := by
  have hline : a ∉ l.takeWhile (· ≠ a) := fun hmem => by simpa using List.mem_takeWhile_imp hmem
  have hsplit := List.takeWhile_append_dropWhile (p := (· ≠ a)) (l := l)
  cases hrest : l.dropWhile (· ≠ a) with
  | nil =>
    rw [hrest, List.append_nil] at hsplit
    rw [hsplit] at hline ⊢
    exact List.splitOn_eq_singleton hline
  | cons c rest =>
    have hc : c = a := by
      have hhead := List.head?_dropWhile_not (fun c => decide (c ≠ a)) l
      rw [hrest] at hhead
      simpa using hhead
    rw [hrest, hc] at hsplit
    conv_lhs => rw [← hsplit]
    exact List.splitOn_append_cons_self_of_not_mem hline rest

/-- The last separator is followed by an empty line. -/
theorem splitOn_intercalate_concat (hlines : ∀ l ∈ lines, a ∉ l) (hne : lines ≠ []) :
    ([a].intercalate lines ++ [a]).splitOn a = lines ++ [[]] := by
  rw [List.splitOn_append_cons_self, List.splitOn_intercalate a hlines hne, List.splitOn_nil]

end YcsbC
