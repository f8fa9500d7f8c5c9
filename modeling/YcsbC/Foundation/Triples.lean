import YcsbC.Foundation.Program

/-!
# What a program that runs alone meets

A program that runs alone meets a guarantee and a postcondition when each of its steps is in the
guarantee and its result and last state satisfy the postcondition. The rules follow the program: a
step, then the rest.

## Main definitions

* `Program.Meets`: the guarantee and the postcondition of a run from a state.

## Main results

* `Program.Meets.bind`: the rule of composition.
* `Program.Meets.reaches`, `Program.Meets.post_run`: what it says about the run.
-/

namespace YcsbC

namespace Program

variable {σ α β : Type}

/-- From the state `s` every step of the program is in `G`, and its result and its last state
satisfy `post`. -/
def Meets (G : σ → σ → Prop) (post : α → σ → Prop) : Program σ α → σ → Prop
  | done a, s => post a s
  | atom act cont, s => G s (act s) ∧ (cont s).Meets G post (act s)

variable {G : σ → σ → Prop} {post post' : α → σ → Prop} {s s' : σ}

theorem meets_pure {a : α} (h : post a s) : (pure a : Program σ α).Meets G post s := h

/-- One atomic step, with what it returns. -/
theorem meets_atomic {f : σ → α × σ} {a : α} (hf : (atomic f).run s = (a, s')) (hG : G s s')
    (h : post a s') : (atomic f).Meets G post s := by
  have hf : f s = (a, s') := hf
  show G s (f s).2 ∧ post (f s).1 (f s).2
  rw [hf]
  exact ⟨hG, h⟩

theorem Meets.mono {p : Program σ α} (hp : p.Meets G post s)
    (h : ∀ a s', post a s' → post' a s') : p.Meets G post' s := by
  induction p generalizing s with
  | done a => exact h a s hp
  | atom act cont ih => exact ⟨hp.1, ih s hp.2⟩

/-- The rule of composition. -/
theorem Meets.bind {mid : β → σ → Prop} {p : Program σ β} {k : β → Program σ α}
    (hp : p.Meets G mid s) (hk : ∀ b s', mid b s' → (k b).Meets G post s') :
    (p >>= k).Meets G post s := by
  induction p generalizing s with
  | done b => exact hk b s hp
  | atom act cont ih => exact ⟨hp.1, ih s hp.2⟩

theorem Meets.map {p : Program σ β} {f : β → α} (hp : p.Meets G (fun b => post (f b)) s) :
    (f <$> p).Meets G post s := by
  rw [map_eq_pure_bind]
  exact hp.bind fun _ _ h => meets_pure h

/-- One atomic step followed by a program. -/
theorem meets_atomic_bind {f : σ → β × σ} {k : β → Program σ α} {b : β}
    (hf : (atomic f).run s = (b, s')) (hG : G s s') (hk : (k b).Meets G post s') :
    (atomic f >>= k).Meets G post s := by
  have hf : f s = (b, s') := hf
  show G s (f s).2 ∧ (k (f s).1).Meets G post (f s).2
  rw [hf]
  exact ⟨hG, hk⟩

/-- Every step of the run is in the guarantee. -/
theorem Meets.reaches {p : Program σ α} (hp : p.Meets G post s) :
    p.Reaches G s (pure (p.run s).1) (p.run s).2 := by
  induction p generalizing s with
  | done a => exact .refl _ s
  | atom act cont ih => exact .atom hp.1 (ih s hp.2)

/-- The run satisfies the postcondition. -/
theorem Meets.post_run {p : Program σ α} (hp : p.Meets G post s) :
    post (p.run s).1 (p.run s).2 := by
  induction p generalizing s with
  | done a => exact hp
  | atom act cont ih => exact ih s hp.2

end Program

end YcsbC
