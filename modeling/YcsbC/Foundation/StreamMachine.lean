import Mathlib.Data.List.Basic
import Mathlib.Tactic.Common

/-!
# Machines that read a stream

A stream arrives in pieces. A machine looks at what has arrived and has not been taken: it takes
some items from the front, may emit a result, and goes on in another state; or it waits. If what
arrives later never changes a step that can be taken already, then the results do not depend on how
the stream was cut.

## Main definitions

* `StreamMachine`: a machine, with the conditions on its steps.
* `StreamMachine.run`, `first`: steps until the machine waits, and until it first emits.
* `StreamMachine.feed`: a run over a stream that arrives in pieces.
* `StreamMachine.Takes`: a machine takes an input as a whole, whatever comes behind it.

## Main results

* `StreamMachine.run_append`, `feed_eq_run`: the pieces do not matter.
* `StreamMachine.Takes.run_append`: the run over an input that is taken.
-/

namespace YcsbC

/-- What one step does. -/
structure Taken (σ ο : Type*) where
  count : ℕ
  emitted : Option ο
  next : σ

/-- A machine that reads a stream of `β` and emits results in `ο`; a step that is `none` waits. -/
structure StreamMachine (σ β ο : Type*) where
  step : σ → List β → Option (Taken σ ο)
  count_pos : ∀ {s b t}, step s b = some t → 0 < t.count
  count_le : ∀ {s b t}, step s b = some t → t.count ≤ b.length
  step_append : ∀ {s b t}, step s b = some t → ∀ b', step s (b ++ b') = some t

namespace StreamMachine

variable {σ β ο : Type*} (M : StreamMachine σ β ο)

/-! ### Runs -/

/-- At most `n` steps: what is emitted, the state, and the input that is left. -/
def runFor : ℕ → σ → List β → List ο × σ × List β
  | 0, s, b => ([], s, b)
  | n + 1, s, b =>
    match M.step s b with
    | none => ([], s, b)
    | some t =>
      let r := runFor n t.next (b.drop t.count)
      (t.emitted.toList ++ r.1, r.2)

/-- The steps that the machine can take. -/
def run (s : σ) (b : List β) : List ο × σ × List β := M.runFor b.length s b

/-- At most `n` steps, up to the first that emits. -/
def firstFor : ℕ → σ → List β → Option ο × σ × List β
  | 0, s, b => (none, s, b)
  | n + 1, s, b =>
    match M.step s b with
    | none => (none, s, b)
    | some ⟨count, some o, s'⟩ => (some o, s', b.drop count)
    | some ⟨count, none, s'⟩ => firstFor n s' (b.drop count)

/-- The steps up to the first result, or until the machine waits. -/
def first (s : σ) (b : List β) : Option ο × σ × List β := M.firstFor b.length s b

variable {M} {s s' s'' : σ} {b b' : List β} {n : ℕ} {t : Taken σ ο} {o : ο}
  {os os' : List ο}

theorem length_drop_lt (h : M.step s b = some t) : (b.drop t.count).length < b.length := by
  have hpos := M.count_pos h
  have hle := M.count_le h
  rw [List.length_drop]
  omega

theorem step_nil : M.step s [] = none := by
  cases h : M.step s [] with
  | none => rfl
  | some t => exact absurd (length_drop_lt h) (Nat.not_lt_zero _)

/-- No more steps are taken than there are items. -/
theorem runFor_eq_run (h : b.length ≤ n) : M.runFor n s b = M.run s b := by
  rw [run]
  induction hk : b.length using Nat.strongRecOn generalizing n s b with
  | _ k ih =>
    obtain _ | k := k
    · obtain rfl := List.eq_nil_of_length_eq_zero hk
      cases n with
      | zero => rfl
      | succ n => simp only [runFor, step_nil]
    · obtain _ | n := n
      · omega
      rw [runFor, runFor]
      cases hstep : M.step s b with
      | none => rfl
      | some t =>
        have hlt := length_drop_lt hstep
        simp only
        rw [ih _ (by omega) (n := n) (by omega) rfl, ih _ (by omega) (n := k) (by omega) rfl]

theorem run_of_none (h : M.step s b = none) : M.run s b = ([], s, b) := by
  rw [run]
  cases b.length with
  | zero => rfl
  | succ n => rw [runFor, h]

theorem run_of_some (h : M.step s b = some t) :
    M.run s b = (t.emitted.toList ++ (M.run t.next (b.drop t.count)).1,
      (M.run t.next (b.drop t.count)).2) := by
  have hlt := length_drop_lt h
  rw [run]
  obtain ⟨n, hn⟩ : ∃ n, b.length = n + 1 := ⟨b.length - 1, by omega⟩
  rw [hn, runFor, h]
  simp only
  rw [runFor_eq_run (by omega)]

/-- After a run the machine waits. -/
theorem step_run (s : σ) (b : List β) : M.step (M.run s b).2.1 (M.run s b).2.2 = none := by
  induction hk : b.length using Nat.strongRecOn generalizing s b with
  | _ k ih =>
    cases hstep : M.step s b with
    | none => rwa [run_of_none hstep]
    | some t =>
      rw [run_of_some hstep]
      exact ih _ (hk ▸ length_drop_lt hstep) _ _ rfl

theorem run_suffix (s : σ) (b : List β) : (M.run s b).2.2 <:+ b := by
  induction hk : b.length using Nat.strongRecOn generalizing s b with
  | _ k ih =>
    cases hstep : M.step s b with
    | none =>
      simp only [run_of_none hstep, List.suffix_refl]
    | some t =>
      rw [run_of_some hstep]
      exact (ih _ (hk ▸ length_drop_lt hstep) _ _ rfl).trans (List.drop_suffix _ _)

/-- **The pieces do not matter.** A run over two pieces is a run over the first one, and then one
over what that leaves and the second. -/
theorem run_append (s : σ) (b b' : List β) :
    M.run s (b ++ b') =
      ((M.run s b).1 ++ (M.run (M.run s b).2.1 ((M.run s b).2.2 ++ b')).1,
        (M.run (M.run s b).2.1 ((M.run s b).2.2 ++ b')).2) := by
  induction hk : b.length using Nat.strongRecOn generalizing s b with
  | _ k ih =>
    cases hstep : M.step s b with
    | none => simp [run_of_none hstep]
    | some t =>
      have hdrop : (b ++ b').drop t.count = b.drop t.count ++ b' :=
        List.drop_append_of_le_length (M.count_le hstep)
      rw [run_of_some (M.step_append hstep b'), hdrop, run_of_some hstep,
        ih _ (hk ▸ length_drop_lt hstep) _ _ rfl, List.append_assoc]

/-! ### The first result -/

theorem firstFor_eq_first (h : b.length ≤ n) : M.firstFor n s b = M.first s b := by
  rw [first]
  induction hk : b.length using Nat.strongRecOn generalizing n s b with
  | _ k ih =>
    obtain _ | k := k
    · obtain rfl := List.eq_nil_of_length_eq_zero hk
      cases n with
      | zero => rfl
      | succ n => simp only [firstFor, step_nil]
    · obtain _ | n := n
      · omega
      rw [firstFor, firstFor]
      cases hstep : M.step s b with
      | none => rfl
      | some t =>
        have hlt := length_drop_lt hstep
        obtain ⟨count, _ | o, next⟩ := t
        · simp only at hlt ⊢
          rw [ih _ (by omega) (n := n) (by omega) rfl, ih _ (by omega) (n := k) (by omega) rfl]
        · rfl

theorem first_of_none (h : M.step s b = none) : M.first s b = (none, s, b) := by
  rw [first]
  cases b.length with
  | zero => rfl
  | succ n => rw [firstFor, h]

theorem first_of_some (h : M.step s b = some t) :
    M.first s b = match t.emitted with
      | some o => (some o, t.next, b.drop t.count)
      | none => M.first t.next (b.drop t.count) := by
  have hlt := length_drop_lt h
  rw [first]
  obtain ⟨n, hn⟩ : ∃ n, b.length = n + 1 := ⟨b.length - 1, by omega⟩
  rw [hn, firstFor, h]
  obtain ⟨count, _ | o, next⟩ := t
  · exact firstFor_eq_first (by simp only at hlt; omega)
  · rfl

/-- A run is a run up to its first result, and what comes behind it. -/
theorem run_eq_first (s : σ) (b : List β) :
    M.run s b = match M.first s b with
      | (none, s', b') => ([], s', b')
      | (some o, s', b') => (o :: (M.run s' b').1, (M.run s' b').2) := by
  induction hk : b.length using Nat.strongRecOn generalizing s b with
  | _ k ih =>
    cases hstep : M.step s b with
    | none => rw [run_of_none hstep, first_of_none hstep]
    | some t =>
      rw [run_of_some hstep, first_of_some hstep]
      obtain ⟨count, _ | o, next⟩ := t
      · exact ih _ (hk ▸ length_drop_lt hstep) _ _ rfl
      · rfl

/-- What comes behind it does not change the first result. -/
theorem first_append (h : M.first s b = (some o, s', b')) (c : List β) :
    M.first s (b ++ c) = (some o, s', b' ++ c) := by
  induction hk : b.length using Nat.strongRecOn generalizing s b with
  | _ k ih =>
    cases hstep : M.step s b with
    | none =>
      rw [first_of_none hstep] at h
      cases h
    | some t =>
      have hdrop : (b ++ c).drop t.count = b.drop t.count ++ c :=
        List.drop_append_of_le_length (M.count_le hstep)
      rw [first_of_some (M.step_append hstep c), hdrop]
      rw [first_of_some hstep] at h
      cases hemit : t.emitted with
      | none =>
        rw [hemit] at h
        exact ih _ (hk ▸ length_drop_lt hstep) h rfl
      | some o' =>
        rw [hemit] at h
        obtain ⟨ho, hs, rfl⟩ : some o' = some o ∧ t.next = s' ∧ b.drop t.count = b' := by
          simpa only [Prod.mk.injEq] using h
        exact congrArg₂ (fun o s => (o, s, _)) ho hs

/-- Where the machine waits it goes on when more comes. -/
theorem first_append_of_none (h : M.first s b = (none, s', b')) (c : List β) :
    M.first s (b ++ c) = M.first s' (b' ++ c) := by
  induction hk : b.length using Nat.strongRecOn generalizing s b with
  | _ k ih =>
    cases hstep : M.step s b with
    | none =>
      rw [first_of_none hstep] at h
      cases h
      rfl
    | some t =>
      have hdrop : (b ++ c).drop t.count = b.drop t.count ++ c :=
        List.drop_append_of_le_length (M.count_le hstep)
      rw [first_of_some (M.step_append hstep c), hdrop]
      rw [first_of_some hstep] at h
      cases hemit : t.emitted with
      | none =>
        rw [hemit] at h
        exact ih _ (hk ▸ length_drop_lt hstep) h rfl
      | some o =>
        rw [hemit] at h
        cases h

theorem length_first_le (s : σ) (b : List β) : (M.first s b).2.2.length ≤ b.length := by
  induction hk : b.length using Nat.strongRecOn generalizing s b with
  | _ k ih =>
    cases hstep : M.step s b with
    | none =>
      rw [first_of_none hstep]
      exact Nat.le_of_eq hk
    | some t =>
      have hlt := length_drop_lt hstep
      rw [first_of_some hstep]
      obtain ⟨count, _ | o, next⟩ := t
      · exact hk ▸ Nat.le_trans (ih _ (hk ▸ hlt) next _ rfl) (Nat.le_of_lt hlt)
      · exact hk ▸ Nat.le_of_lt hlt

theorem length_lt_of_first (h : M.first s b = (some o, s', b')) : b'.length < b.length := by
  induction hk : b.length using Nat.strongRecOn generalizing s b with
  | _ k ih =>
    cases hstep : M.step s b with
    | none =>
      rw [first_of_none hstep] at h
      cases h
    | some t =>
      have hlt := length_drop_lt hstep
      rw [first_of_some hstep] at h
      obtain ⟨count, _ | o, next⟩ := t
      · exact hk ▸ Nat.lt_trans (ih _ (hk ▸ hlt) h rfl) hlt
      · obtain ⟨-, -, rfl⟩ : o = _ ∧ next = s' ∧ b.drop count = b' := by simpa using h
        exact hk ▸ hlt

/-! ### Streams in pieces -/

variable (M) in
/-- The pieces arrive one after the other; each time the machine takes the steps that it can. -/
def feed : σ → List β → List (List β) → List ο × σ × List β
  | s, b, [] => ([], s, b)
  | s, b, piece :: pieces =>
    let r := M.run s (b ++ piece)
    let r' := feed r.2.1 r.2.2 pieces
    (r.1 ++ r'.1, r'.2)

/-- The same as if the stream had come in one piece. -/
theorem feed_eq_run (h : M.step s b = none) (pieces : List (List β)) :
    M.feed s b pieces = M.run s (b ++ pieces.flatten) := by
  induction pieces generalizing s b with
  | nil =>
    rw [List.flatten_nil, List.append_nil, run_of_none h]
    rfl
  | cons piece pieces ih =>
    rw [List.flatten_cons, ← List.append_assoc, run_append, feed, ih (step_run s (b ++ piece))]

/-! ### Inputs that are taken as a whole -/

variable (M) in
/-- In the state `s` the machine takes the input `b` step by step, whatever comes behind it, emits
`os` and ends up in the state `s'`. -/
inductive Takes : σ → List β → List ο → σ → Prop
  | refl (s : σ) : Takes s [] [] s
  | step {s s' : σ} {b b' : List β} {t : Taken σ ο} {os : List ο} (h : M.step s b = some t)
      (hcount : t.count = b.length) (hrest : Takes t.next b' os s') :
      Takes s (b ++ b') (t.emitted.toList ++ os) s'

theorem Takes.single (h : M.step s b = some t) (hcount : t.count = b.length) :
    M.Takes s b t.emitted.toList t.next := by
  simpa using Takes.step h hcount (.refl t.next)

theorem Takes.trans (h : M.Takes s b os s') (h' : M.Takes s' b' os' s'') :
    M.Takes s (b ++ b') (os ++ os') s'' := by
  induction h with
  | refl => exact h'
  | step hstep hcount _ ih =>
    rw [List.append_assoc, List.append_assoc]
    exact .step hstep hcount (ih h')

theorem Takes.run_append (h : M.Takes s b os s') (rest : List β) :
    M.run s (b ++ rest) = (os ++ (M.run s' rest).1, (M.run s' rest).2) := by
  induction h with
  | refl => rfl
  | step hstep hcount _ ih =>
    rw [List.append_assoc, run_of_some (M.step_append hstep _), hcount, List.drop_left, ih,
      List.append_assoc]

theorem Takes.first_append (h : M.Takes s b [] s') (b' : List β) :
    M.first s (b ++ b') = M.first s' b' := by
  generalize hos : ([] : List ο) = os at h
  induction h with
  | refl => rfl
  | step hstep hcount _ ih =>
    obtain ⟨hemit, hnil⟩ := List.append_eq_nil_iff.1 hos.symm
    rw [List.append_assoc, first_of_some (M.step_append hstep _), Option.toList_eq_nil_iff.1 hemit,
      hcount, List.drop_left, ih hnil.symm]

end StreamMachine

end YcsbC
