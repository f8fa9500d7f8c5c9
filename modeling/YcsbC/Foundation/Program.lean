import Mathlib.Logic.Relation
import Mathlib.Logic.Function.Basic
import Mathlib.Tactic.Common

/-!
# Programs made of atomic steps

A program over a shared state `σ` is a tree of atomic steps. A step changes the state at one
instant, and what the program does next may depend on the state that the step saw. The same
program can be run alone, from its first step to its result, or one step at a time among other
programs (`YcsbC.Foundation.Interleaving`).

## Main definitions

* `Program`: programs over `σ` with a result in `α`; it is a lawful monad.
* `Program.atomic`: one atomic step returning a value.
* `Program.run`: the run of a program that is alone.
* `Program.Reaches`: a program that is alone comes to some point of its run.
* `Program.zoom`: a program over a part of the state, run on the whole state.

## Main results

* `Program.run_bind`, `Program.run_atomic`, `Program.run_zoom`: the run of a composite program.
-/

namespace YcsbC

/-- A program over the shared state `σ` with a result in `α`: it has ended, or it has an atomic
step `act` to take and goes on with `cont`, applied to the state that the step saw. -/
inductive Program (σ α : Type) : Type where
  | done (a : α)
  | atom (act : σ → σ) (cont : σ → Program σ α)

namespace Program

variable {σ τ α β γ : Type}

/-- One program after another. -/
def bind : Program σ α → (α → Program σ β) → Program σ β
  | done a, k => k a
  | atom act cont, k => atom act fun s => (cont s).bind k

instance : Monad (Program σ) where
  pure := done
  bind := bind

@[simp] theorem done_eq_pure (a : α) : (done a : Program σ α) = pure a := rfl

@[simp] theorem bind_atom (act : σ → σ) (cont : σ → Program σ α) (k : α → Program σ β) :
    (atom act cont >>= k) = atom act fun s => cont s >>= k :=
  rfl

theorem bind_done (p : Program σ α) : p.bind done = p := by
  induction p with
  | done a => rfl
  | atom act cont ih => simp only [bind, ih]

theorem bind_bind (p : Program σ α) (k : α → Program σ β) (l : β → Program σ γ) :
    (p.bind k).bind l = p.bind fun a => (k a).bind l := by
  induction p with
  | done a => rfl
  | atom act cont ih => simp only [bind, ih]

instance : LawfulMonad (Program σ) :=
  LawfulMonad.mk' _ bind_done (fun _ _ => rfl) bind_bind

/-- One atomic step: read the state, change it and return a value. -/
def atomic (f : σ → α × σ) : Program σ α :=
  atom (fun s => (f s).2) fun s => pure (f s).1

/-! ### Running a program alone -/

/-- The result and the last state of a program that runs alone. -/
def run : Program σ α → σ → α × σ
  | done a, s => (a, s)
  | atom act cont, s => (cont s).run (act s)

@[simp] theorem run_pure (a : α) (s : σ) : (pure a : Program σ α).run s = (a, s) := rfl

@[simp] theorem run_atomic (f : σ → α × σ) (s : σ) : (atomic f).run s = f s := rfl

@[simp] theorem run_bind (p : Program σ α) (k : α → Program σ β) (s : σ) :
    (p >>= k).run s = (k (p.run s).1).run (p.run s).2 := by
  induction p generalizing s with
  | done a => rfl
  | atom act cont ih => exact ih s (act s)

@[simp] theorem run_map (f : α → β) (p : Program σ α) (s : σ) :
    (f <$> p).run s = (f (p.run s).1, (p.run s).2) := by
  rw [map_eq_pure_bind, run_bind, run_pure]

/-! ### Running a program for a while -/

/-- Alone from the state `s`, the program `p` comes to the rest `p'` in the state `s'`, and each of
its steps on the way is in `G`. -/
inductive Reaches (G : σ → σ → Prop) : Program σ α → σ → Program σ α → σ → Prop
  | refl (p : Program σ α) (s : σ) : Reaches G p s p s
  | atom {act : σ → σ} {cont : σ → Program σ α} {s : σ} {p' : Program σ α} {s' : σ}
      (hG : G s (act s)) (h : Reaches G (cont s) (act s) p' s') :
      Reaches G (.atom act cont) s p' s'

section Reaches

variable {G : σ → σ → Prop} {p p' p'' : Program σ α} {s s' s'' : σ}

theorem Reaches.trans (h : p.Reaches G s p' s') (h' : p'.Reaches G s' p'' s'') :
    p.Reaches G s p'' s'' := by
  induction h with
  | refl => exact h'
  | atom hG _ ih => exact .atom hG (ih h')

theorem Reaches.mono {G' : σ → σ → Prop} (h : p.Reaches G s p' s')
    (hG : ∀ s s', G s s' → G' s s') : p.Reaches G' s p' s' := by
  induction h with
  | refl => exact .refl ..
  | atom hstep _ ih => exact .atom (hG _ _ hstep) ih

/-- What comes after a program waits while the program runs. -/
theorem Reaches.bind (h : p.Reaches G s p' s') (k : α → Program σ β) :
    (p >>= k).Reaches G s (p' >>= k) s' := by
  induction h with
  | refl => exact .refl ..
  | atom hG _ ih => exact .atom hG ih

/-- The rest of a program does what was left to do. -/
theorem Reaches.run_eq (h : p.Reaches G s p' s') : p.run s = p'.run s' := by
  induction h with
  | refl => rfl
  | atom _ _ ih => exact ih

/-- A program comes to its end. -/
theorem reaches_run (p : Program σ α) (s : σ) :
    p.Reaches (fun _ _ => True) s (pure (p.run s).1) (p.run s).2 := by
  induction p generalizing s with
  | done a => exact .refl ..
  | atom act cont ih => exact .atom trivial (ih s (act s))

/-- A run that keeps to `G` up to some point and from there to the end. -/
theorem Reaches.run (h : p.Reaches G s p' s')
    (h' : p'.Reaches G s' (pure (p'.run s').1) (p'.run s').2) :
    p.Reaches G s (pure (p.run s).1) (p.run s).2 := by
  rw [h.run_eq]
  exact h.trans h'

/-- The rule of composition for whole runs. -/
theorem Reaches.run_bind (hp : p.Reaches G s (pure (p.run s).1) (p.run s).2)
    {k : α → Program σ β}
    (hk : (k (p.run s).1).Reaches G (p.run s).2
      (pure ((k (p.run s).1).run (p.run s).2).1) ((k (p.run s).1).run (p.run s).2).2) :
    (p >>= k).Reaches G s (pure ((p >>= k).run s).1) ((p >>= k).run s).2 :=
  (hp.bind k).run hk

end Reaches

/-! ### Programs over a part of the state -/

/-- A part `σ` of a state `τ`: it can be read and replaced. -/
structure Part (τ σ : Type) where
  get : τ → σ
  set : σ → τ → τ
  get_set : ∀ s t, get (set s t) = s
  set_set : ∀ s s' t, set s' (set s t) = set s' t
  set_get : ∀ t, set (get t) t = t

/-- A program over a part of the state, run on the whole state. -/
def zoom (part : Part τ σ) : Program σ α → Program τ α
  | done a => done a
  | atom act cont =>
    atom (fun t => part.set (act (part.get t)) t) fun t => (cont (part.get t)).zoom part

@[simp] theorem zoom_pure (part : Part τ σ) (a : α) :
    (pure a : Program σ α).zoom part = pure a :=
  rfl

@[simp] theorem zoom_atomic (part : Part τ σ) (f : σ → α × σ) :
    (atomic f).zoom part =
      atomic fun t => ((f (part.get t)).1, part.set (f (part.get t)).2 t) :=
  rfl

theorem zoom_bind (part : Part τ σ) (p : Program σ α) (k : α → Program σ β) :
    (p >>= k).zoom part = p.zoom part >>= fun a => (k a).zoom part := by
  induction p with
  | done a => rfl
  | atom act cont ih =>
    simp only [bind_atom, zoom]
    congr 1
    funext t
    exact ih (part.get t)

@[simp] theorem run_zoom (part : Part τ σ) (p : Program σ α) (t : τ) :
    (p.zoom part).run t =
      ((p.run (part.get t)).1, part.set (p.run (part.get t)).2 t) := by
  induction p generalizing t with
  | done a => simp only [zoom, run, part.set_get]
  | atom act cont ih => simp only [zoom, run, ih, part.get_set, part.set_set]

end Program

end YcsbC
