import Mathlib.Algebra.Order.Group.Multiset
import Mathlib.Tactic.Abel

/-!
# Windows over a number of jobs

A number of jobs is run through a window: the first few are launched together, and after that every
completion launches the next job as long as there is one. A single counter is advanced by both the
first launches and the completions, whether or not a job is left to launch. The counter tells how
many jobs have been launched until all of them have, and then how many have been completed.

## Main definitions

* `Window`, `Window.Step`: the counter with the jobs, and the completion of one pending job.
* `Window.Tracks`: what the counter says after some completions.

## Main results

* `Window.Tracks.step`: the completion of a job.
* `Window.Tracks.waiting_iff`: the counter reaches its end when no job is pending.
-/

namespace YcsbC

/-- The counter, the pending jobs, and all jobs launched so far. -/
structure Window (α : Type) where
  next : ℕ
  pending : Multiset α
  launched : List α

namespace Window

variable {α : Type} {total first : ℕ} {w w' : Window α} {done : List α} {job : α}

/-- The first jobs are launched. -/
def start (jobs : List α) : Window α := ⟨jobs.length, jobs, jobs⟩

/-- A pending job is completed. -/
inductive Step (total : ℕ) (w : Window α) (job : α) : Window α → Prop
  | launch (rest : Multiset α) (hjob : w.pending = job ::ₘ rest) (hnext : w.next < total)
      (next : α) : Step total w job ⟨w.next + 1, next ::ₘ rest, w.launched ++ [next]⟩
  | drain (rest : Multiset α) (hjob : w.pending = job ::ₘ rest) (hnext : total ≤ w.next) :
      Step total w job ⟨w.next + 1, rest, w.launched⟩

/-- The window after the completion of the jobs `done`, when the first `first` of `total` jobs were
launched together. -/
structure Tracks (total first : ℕ) (done : List α) (w : Window α) : Prop where
  next_eq : w.next = first + done.length
  conserved : w.pending + done = (w.launched : Multiset α)
  length_eq : w.launched.length = min w.next total

theorem tracks_start {jobs : List α} (h : jobs.length ≤ total) :
    (start jobs).Tracks total jobs.length [] where
  next_eq := rfl
  conserved := add_zero _
  length_eq := (min_eq_left h).symm

theorem Tracks.step (h : w.Tracks total first done) (hs : w.Step total job w') :
    w'.Tracks total first (done ++ [job]) := by
  obtain ⟨hnext, hconserved, hlength⟩ := h
  have hdone : ((done ++ [job] : List α) : Multiset α) = job ::ₘ (done : Multiset α) := by
    rw [← Multiset.coe_add, Multiset.coe_singleton, add_comm, Multiset.singleton_add]
  cases hs with
  | launch rest hjob hlt next =>
    refine ⟨?_, ?_, ?_⟩
    · rw [List.length_append, hnext, List.length_singleton, add_assoc]
    · rw [hdone, ← Multiset.coe_add, ← hconserved, hjob, Multiset.coe_singleton]
      simp only [← Multiset.singleton_add]
      abel
    · rw [List.length_append, hlength, List.length_singleton]
      show min w.next total + 1 = min (w.next + 1) total
      omega
  | drain rest hjob hle =>
    refine ⟨?_, ?_, ?_⟩
    · rw [List.length_append, hnext, List.length_singleton, add_assoc]
    · rw [hdone, ← hconserved, hjob, Multiset.add_cons, Multiset.cons_add]
    · rw [hlength]
      show min w.next total = min (w.next + 1) total
      omega

/-- Launched jobs are pending or completed. -/
theorem Tracks.card_pending (h : w.Tracks total first done) :
    w.pending.card + done.length = min w.next total := by
  have hcard := congrArg Multiset.card h.conserved
  rwa [Multiset.card_add, Multiset.coe_card, Multiset.coe_card, h.length_eq] at hcard

/-- **The counter reaches its end when no job is pending.** -/
theorem Tracks.waiting_iff (h : w.Tracks total first done)
    (hpos : 0 < total → 0 < first) : w.next < total + first ↔ w.pending ≠ 0 := by
  have hcard := h.card_pending
  have hnext := h.next_eq
  rw [← Multiset.card_pos]
  constructor
  · intro hlt
    omega
  · intro hlt
    omega

/-- Jobs are pending until all of them have been completed. -/
theorem Tracks.length_done (h : w.Tracks total first done)
    (hpos : 0 < total → 0 < first) : w.pending = 0 ↔ done.length = total := by
  have hcard := h.card_pending
  have hnext := h.next_eq
  rw [← Multiset.card_eq_zero]
  constructor
  · intro hzero
    omega
  · intro hlength
    omega

end Window

end YcsbC
