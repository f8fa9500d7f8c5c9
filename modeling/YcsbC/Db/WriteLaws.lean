import YcsbC.Db.Reachable
import YcsbC.Db.Schema

/-!
# What `Insert` and `Update` do with a list of values

`Insert` adds the fields of its list one by one and stops at the first one that is present, so a
conflict leaves behind what the list has added before. `Update` overwrites the fields of a record
that exists; in a record that it has just created it inserts them and ignores the results, so there
the first value of a field counts and not the last one.

## Main definitions

* `Record.firstValue`, `Record.lastValue`: the values that a list gives to a field.
* `Record.StopsAfter`: where an insertion stops.
* `Record.Overwrites`: the law of `Update`.

## Main results

* `insert_conflict`: what a conflict leaves behind.
* `update_overwrites_iff`: when `Update` keeps its law.
-/

namespace YcsbC

namespace Record

/-- The value of the first pair of the list that names the field. -/
def firstValue (values : List KVPair) (k : VmpString) : Option Str :=
  (values.find? fun pair => .wrap pair.1 = k).map fun pair => cStr pair.2

/-- The value of the last pair of the list that names the field. -/
def lastValue (values : List KVPair) (k : VmpString) : Option Str := firstValue values.reverse k

/-- An insertion of the list into the record stops after the pairs `before`: their fields are
missing and all different, and the next pair names a field that is present by then. -/
structure StopsAfter (values : List KVPair) (r : Record) (before : List KVPair) : Prop where
  missing : ∀ k ∈ names before, r k = none
  nodup : (names before).Nodup
  next : ∃ pair after, values = before ++ pair :: after ∧
    ((r (.wrap pair.1)).isSome ∨ .wrap pair.1 ∈ names before)

/-- The fields that the list names hold their last values in `r'`, the others what they hold in
`r`. -/
def Overwrites (values : List KVPair) (r r' : Record) : Prop :=
  ∀ k, r' k = (lastValue values k).or (r k)

variable {values : List KVPair} {r r' : Record} {k : VmpString}

theorem firstValue_cons (field str : Str) (values : List KVPair) (k : VmpString) :
    firstValue ((field, str) :: values) k =
      if k = .wrap field then some (cStr str) else firstValue values k := by
  rw [firstValue, List.find?_cons]
  by_cases hk : k = .wrap field
  · rw [if_pos hk, decide_eq_true hk.symm, Option.map_some]
  · rw [if_neg hk, decide_eq_false fun h => hk h.symm, firstValue]

theorem lastValue_cons (field str : Str) (values : List KVPair) (k : VmpString) :
    lastValue ((field, str) :: values) k =
      (lastValue values k).or (if k = .wrap field then some (cStr str) else none) := by
  have hone := firstValue_cons field str [] k
  rw [lastValue, List.reverse_cons, firstValue, List.find?_append, Option.map_or, lastValue,
    firstValue]
  exact congrArg (Option.or _) hone

theorem firstValue_isSome : (firstValue values k).isSome ↔ k ∈ names values := by
  rw [firstValue, Option.isSome_map, List.find?_isSome]
  simp only [decide_eq_true_eq]
  exact List.mem_map.symm

theorem lastValue_isSome : (lastValue values k).isSome ↔ k ∈ names values := by
  rw [lastValue, firstValue_isSome, names, List.map_reverse, List.mem_reverse]
  rfl

/-! ### The loops -/

/-- The loop of `Update` on a record that exists keeps the law of `Update`. -/
theorem overwrites_setFields (values : List KVPair) (r : Record) :
    Overwrites values r (setFields values r) := by
  intro k
  induction values generalizing r with
  | nil => rfl
  | cons pair values ih =>
    obtain ⟨field, str⟩ := pair
    rw [setFields, ih, lastValue_cons, Option.or_assoc, Function.update_apply]
    split_ifs <;> rfl

/-- The loop of `Update` on a new record takes the first value of each field. -/
theorem addFields_apply (values : List KVPair) (r : Record) (k : VmpString) :
    addFields values r k = (r k).or (firstValue values k) := by
  induction values generalizing r with
  | nil => exact (Option.or_none).symm
  | cons pair values ih =>
    obtain ⟨field, str⟩ := pair
    rw [addFields, ih, firstValue_cons]
    by_cases hk : k = .wrap field
    · rw [if_pos hk, ← hk]
      cases hr : r k with
      | none => simp
      | some v => simp [hr]
    · rw [if_neg hk]
      split_ifs
      · rfl
      · rw [Function.update_of_ne hk]

/-- An insertion that ends in a conflict has set the fields before the one where it stops. -/
theorem insertFields_conflict (h : (insertFields values r).1 = .kErrorConflict) :
    ∃ before, StopsAfter values r before ∧ (insertFields values r).2 = setFields before r := by
  induction values generalizing r with
  | nil => cases h
  | cons pair values ih =>
    obtain ⟨field, str⟩ := pair
    by_cases hfield : (r (.wrap field)).isSome
    · refine ⟨[], ⟨fun _ hk => absurd hk List.not_mem_nil, List.nodup_nil,
        _, values, rfl, .inl hfield⟩, ?_⟩
      rw [insertFields, if_pos hfield, setFields]
    · rw [insertFields, if_neg hfield] at h ⊢
      obtain ⟨before, hstops, hset⟩ := ih h
      obtain ⟨pair, after, hvalues, hnext⟩ := hstops.next
      -- the field that has just been added is not added again
      have hnew : VmpString.wrap field ∉ names before := fun hmem => by
        have hnone := hstops.missing _ hmem
        rw [Function.update_self] at hnone
        cases hnone
      refine ⟨(field, str) :: before, ⟨fun k hk => ?_, List.nodup_cons.2 ⟨hnew, hstops.nodup⟩,
        pair, after, congrArg (List.cons _) hvalues, ?_⟩, hset⟩
      · rcases mem_names_cons.1 hk with rfl | hk
        · exact Option.not_isSome_iff_eq_none.1 hfield
        · have hnone := hstops.missing k hk
          have hne : k ≠ .wrap field := by
            rintro rfl
            exact hnew hk
          rwa [Function.update_of_ne hne] at hnone
      · rw [mem_names_cons]
        rw [update_isSome] at hnext
        tauto

end Record

open Store HashtableDB

variable {order : IterationOrder VmpString} {W : Set (Str × Str)} {s : Store}
  {table key : Str} {values : List KVPair}

/-! ### A conflict -/

theorem nil_of_same {k : VmpString} {r : Record} {s' : Store} {before : List KVPair}
    (hr : (s.record k).getD Record.empty = r) (hstops : Record.StopsAfter values r before)
    (hrec : s'.record k = some (Record.setFields before r)) (hsame : s.Same s') : before = [] := by
  obtain _ | ⟨pair, rest⟩ := before
  · rfl
  -- the first pair has been added, so its field was missing before and is present now
  have hmem : .wrap pair.1 ∈ Record.names (pair :: rest) := List.mem_cons_self
  rw [hsame.record] at hrec
  rw [hrec, Option.getD_some] at hr
  have hnow : (Record.setFields (pair :: rest) r (.wrap pair.1)).isSome :=
    Record.setFields_isSome.2 (.inr hmem)
  rw [hr, hstops.missing _ hmem] at hnow
  cases hnow

/-- **What an insertion that ends in a conflict leaves behind.** Only the record that it names
changes. That record exists afterwards; it has the fields from before, and those of the pairs before
the first one that names a field present by then. So the store is as it was before iff that is the
first pair of the list. -/
theorem insert_conflict (h : Reachable order W s)
    (hconflict : ((insert table key values).run s).1 = .kErrorConflict) :
    let s' := ((insert table key values).run s).2
    let k := VmpString.wrap (keyIndex table key)
    let r := (s.record k).getD Record.empty
    s.OnlyAt k s' ∧ ∃ before, Record.StopsAfter values r before ∧
      s'.record k = some (Record.setFields before r) ∧ (s.Same s' ↔ before = []) := by
  obtain ⟨s', hrun, -, honly, hrec, -⟩ := run_insert h.wf table key values
  rw [hrun] at hconflict ⊢
  obtain ⟨before, hstops, hset⟩ := Record.insertFields_conflict hconflict
  rw [hset] at hrec
  refine ⟨honly, before, hstops, hrec, nil_of_same rfl hstops hrec, ?_⟩
  rintro rfl
  obtain ⟨pair, after, rfl, hpresent | hmem⟩ := hstops.next
  · -- the record exists, since it has a field
    cases hkey : s.keyTable.get (keyIndex table key) with
    | none =>
      rw [record_eq_none.2 hkey] at hpresent
      cases hpresent
    | some t =>
      rw [record_of_find hkey, Option.getD_some] at hpresent
      obtain ⟨s'', hrun', hsame⟩ := h.wf.run_insert_conflict_first hkey hpresent after
      rw [congrArg Prod.snd (hrun.symm.trans hrun')]
      exact hsame
  · cases hmem

/-- A list of two fields, the second of which the record has. -/
theorem insert_conflict_two_fields :
    let c : Call := .insert "t".toList "u1".toList [("f0".toList, "a".toList)]
    let s := ((c.program (LockStlDB (.newestFirst _))).run Store.empty).2
    let values := [("f1".toList, "b".toList), ("f0".toList, "c".toList)]
    let s' := ((insert "t".toList "u1".toList values).run s).2
    s.OnlyAt (.wrap (keyIndex "t".toList "u1".toList)) s' := by
  intro c s values
  exact (insert_conflict (.call c .empty) (show ((insert "t".toList "u1".toList values).run s).1 =
    .kErrorConflict by decide)).1

/-- A conflict that leaves a record behind, and one that leaves a field behind. -/
theorem insert_not_all_or_nothing :
    let c : Call := .insert "t".toList "u1".toList [("f0".toList, "a".toList)]
    let s := ((c.program (LockStlDB (.newestFirst _))).run Store.empty).2
    let twice := [("f0".toList, "a".toList), ("f0".toList, "b".toList)]
    let values := [("f1".toList, "b".toList), ("f0".toList, "c".toList)]
    (Reachable (.newestFirst _) ∅ Store.empty ∧
      ((insert "t".toList "u1".toList twice).run Store.empty).1 = .kErrorConflict ∧
      ¬ Store.empty.Same ((insert "t".toList "u1".toList twice).run Store.empty).2) ∧
    Reachable (.newestFirst _) (∅ ∪ {("t".toList, "u1".toList)}) s ∧
      ((insert "t".toList "u1".toList values).run s).1 = .kErrorConflict ∧
      ¬ s.Same ((insert "t".toList "u1".toList values).run s).2 := by
  intro c s twice values
  let k := VmpString.wrap (keyIndex "t".toList "u1".toList)
  refine ⟨⟨.empty, by decide, fun hsame => ?_⟩, .call c .empty, by decide, fun hsame => ?_⟩
  · have hnow : (((insert "t".toList "u1".toList twice).run Store.empty).2.record k).isSome := by
      decide
    rw [hsame.record, record_eq_none.2 (UnorderedMap.find_empty k)] at hnow
    cases hnow
  · have hbefore : ((s.record k).bind fun r => r (.wrap "f1".toList)) = none := by decide
    have hnow : ((((insert "t".toList "u1".toList values).run s).2.record k).bind
        fun r => r (.wrap "f1".toList)) = some "b".toList := by decide
    rw [hsame.record, hbefore] at hnow
    cases hnow

/-! ### The law of `Update` -/

namespace Record

/-- Applying the list a second time changes nothing. -/
theorem setFields_of_overwrites (h : Overwrites values r r') : setFields values r' = r' := by
  funext k
  rw [overwrites_setFields values r' k, h k, ← Option.or_assoc, Option.or_self]

/-- A new record keeps the law of `Update` iff the first and the last value of each field are the
same. -/
theorem overwrites_addFields_iff :
    Overwrites values Record.empty (addFields values Record.empty) ↔
      ∀ k, firstValue values k = lastValue values k := by
  refine forall_congr' fun k => ?_
  rw [addFields_apply, Record.empty, Option.none_or, Option.or_none]

end Record

/-- The store after an `Update`. -/
def updated (table key : Str) (values : List KVPair) (s : Store) : Store :=
  ((update table key values).run s).2

theorem reachable_updated (h : Reachable order W s) (table key : Str) (values : List KVPair) :
    Reachable order (W ∪ {(table, key)}) (updated table key values s) := by
  have hcall := h.call (.update table key values)
  simp only [Call.program, LockStlDB, Program.run_map] at hcall
  exact hcall

/-- The value of a field of a record. -/
def Store.fieldValue (s : Store) (k f : VmpString) : Option Str := (s.record k).bind fun r => r f

theorem record_updated (h : s.Wf ∅ ∅) (table key : Str) (values : List KVPair) :
    (updated table key values s).Wf ∅ ∅ ∧
      (updated table key values s).record (.wrap (keyIndex table key)) =
        some (updatedRecord values (s.record (.wrap (keyIndex table key)))) := by
  obtain ⟨s', hrun, hwf, -, hrec, -⟩ := run_update h table key values
  rw [updated, hrun]
  exact ⟨hwf, hrec⟩

theorem fieldValue_updated (h : s.Wf ∅ ∅) (table key : Str) (values : List KVPair)
    (f : VmpString) :
    (updated table key values s).fieldValue (.wrap (keyIndex table key)) f =
      if (s.record (.wrap (keyIndex table key))).isSome then
        (Record.lastValue values f).or (s.fieldValue (.wrap (keyIndex table key)) f)
      else Record.firstValue values f := by
  rw [fieldValue, (record_updated h table key values).2, fieldValue, Option.bind_some]
  cases s.record (.wrap (keyIndex table key)) with
  | none => exact (Record.addFields_apply values Record.empty f).trans (Option.none_or)
  | some r => exact Record.overwrites_setFields values r f

theorem updated_overwrites_iff (h : s.Wf ∅ ∅) (table key : Str) (values : List KVPair) :
    (∃ r, (updated table key values s).record (.wrap (keyIndex table key)) = some r ∧
      Record.Overwrites values
        ((s.record (.wrap (keyIndex table key))).getD Record.empty) r ∧
      (updated table key values (updated table key values s)).record
        (.wrap (keyIndex table key)) = some r) ↔
      (s.record (.wrap (keyIndex table key))).isSome ∨
        ∀ f, Record.firstValue values f = Record.lastValue values f := by
  obtain ⟨hwf, hrec⟩ := record_updated h table key values
  obtain ⟨-, htwice⟩ := record_updated hwf table key values
  rw [hrec, updatedRecord] at htwice
  rw [htwice, hrec]
  cases s.record (.wrap (keyIndex table key)) with
  | none =>
    simp only [updatedRecord, Option.some.injEq, exists_eq_left', Option.getD_none,
      Option.isSome_none, Bool.false_eq_true, false_or, Record.overwrites_addFields_iff,
      and_iff_left_iff_imp]
    exact fun hsame => Record.setFields_of_overwrites (Record.overwrites_addFields_iff.2 hsame)
  | some r =>
    have hlaw := Record.overwrites_setFields values r
    simp only [updatedRecord, Option.some.injEq, exists_eq_left', Option.getD_some,
      Option.isSome_some, true_or, iff_true]
    exact ⟨hlaw, Record.setFields_of_overwrites hlaw⟩

/-- The values of the named fields do not depend on the store iff the first and the last value of
each field are the same. -/
theorem updated_independent_iff (order : IterationOrder VmpString) (table key : Str)
    (values : List KVPair) :
    (∀ W₁ W₂ s₁ s₂, Reachable order W₁ s₁ → Reachable order W₂ s₂ → ∀ f ∈ Record.names values,
      (updated table key values s₁).fieldValue (.wrap (keyIndex table key)) f =
        (updated table key values s₂).fieldValue (.wrap (keyIndex table key)) f) ↔
      ∀ f, Record.firstValue values f = Record.lastValue values f := by
  constructor
  · intro hsame f
    by_cases hf : f ∈ Record.names values
    · -- one store without the record, and one where it has just been made
      have hnone : Store.empty.record (.wrap (keyIndex table key)) = none :=
        record_eq_none.2 (UnorderedMap.find_empty _)
      have hempty := fieldValue_updated wf_empty table key values f
      rw [hnone, Option.isSome_none, if_neg Bool.false_ne_true] at hempty
      have hfull := fieldValue_updated (record_updated wf_empty table key values).1 table key
        values f
      rw [(record_updated wf_empty table key values).2, if_pos Option.isSome_some,
        Option.or_of_isSome (Record.lastValue_isSome.2 hf)] at hfull
      rw [← hempty, ← hfull]
      exact hsame _ _ _ _ .empty (reachable_updated .empty table key values) f hf
    · have hfirst := mt Record.firstValue_isSome.1 hf
      have hlast := mt Record.lastValue_isSome.1 hf
      rw [Option.not_isSome_iff_eq_none] at hfirst hlast
      rw [hfirst, hlast]
  · intro hsame W₁ W₂ s₁ s₂ h₁ h₂ f hf
    have hvalue : ∀ {W s}, Reachable order W s →
        (updated table key values s).fieldValue (.wrap (keyIndex table key)) f =
          Record.lastValue values f := fun {W s} h => by
      rw [fieldValue_updated h.wf, hsame, Option.or_of_isSome (Record.lastValue_isSome.2 hf),
        ite_self]
    rw [hvalue h₁, hvalue h₂]

/-- **When `Update` overwrites.** It returns `kOK`. The named fields hold their last values
afterwards, the others what they held, and doing it again changes nothing, iff the record exists or
each field has the same first and last value in the list. For the lists of the latter kind, and no
others, the values of the named fields do not depend on the store. -/
theorem update_overwrites_iff (h : Reachable order W s) (table key : Str)
    (values : List KVPair) :
    let k := VmpString.wrap (keyIndex table key)
    ((update table key values).run s).1 = .kOK ∧
    ((∃ r, (updated table key values s).record k = some r ∧
        Record.Overwrites values ((s.record k).getD Record.empty) r ∧
        (updated table key values (updated table key values s)).record k = some r) ↔
      (s.record k).isSome ∨ ∀ f, Record.firstValue values f = Record.lastValue values f) ∧
    ((∀ W₁ W₂ s₁ s₂, Reachable order W₁ s₁ → Reachable order W₂ s₂ →
        ∀ f ∈ Record.names values, (updated table key values s₁).fieldValue k f =
          (updated table key values s₂).fieldValue k f) ↔
      ∀ f, Record.firstValue values f = Record.lastValue values f) := by
  obtain ⟨s', hrun, -⟩ := run_update h.wf table key values
  exact ⟨by rw [hrun], updated_overwrites_iff h.wf table key values,
    updated_independent_iff order table key values⟩

/-- A list that names its field once, on the empty store. -/
theorem update_overwrites_one_field :
    ∃ r, (updated "t".toList "u1".toList [("f0".toList, "a".toList)] Store.empty).record
        (.wrap (keyIndex "t".toList "u1".toList)) = some r ∧
      Record.Overwrites [("f0".toList, "a".toList)] Record.empty r := by
  obtain ⟨-, hlaw, -⟩ := update_overwrites_iff (.empty : Reachable (.newestFirst _) ∅ Store.empty)
    "t".toList "u1".toList [("f0".toList, "a".toList)]
  obtain ⟨r, hrec, hoverwrites, -⟩ := hlaw.2 (.inr fun f => rfl)
  exact ⟨r, hrec, hoverwrites⟩

/-- A list that names a field twice leaves its first value in a new record, and its last value when
it is applied again. -/
theorem update_keeps_first_value :
    let values := [("f0".toList, "a".toList), ("f0".toList, "b".toList)]
    let k := VmpString.wrap (keyIndex "t".toList "u1".toList)
    let s := updated "t".toList "u1".toList values Store.empty
    Reachable (.newestFirst _) ∅ Store.empty ∧
      ((update "t".toList "u1".toList values).run Store.empty).1 = .kOK ∧
      Record.lastValue values (.wrap "f0".toList) = some "b".toList ∧
      s.fieldValue k (.wrap "f0".toList) = some "a".toList ∧
      (updated "t".toList "u1".toList values s).fieldValue k (.wrap "f0".toList) =
        some "b".toList := by
  refine ⟨.empty, ?_⟩
  decide

end YcsbC
