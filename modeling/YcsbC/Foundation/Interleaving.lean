import Mathlib.Data.Fin.VecNotation
import Mathlib.Data.Fintype.Card
import Mathlib.Data.Set.Lattice
import Mathlib.Order.CompletePartialOrder
import YcsbC.Foundation.Program

/-!
# Interleavings of programs

Several programs share one state and take their atomic steps in any order. This file gives the
step relation of such a family and the rule by which an invariant of the shared state is carried
through every interleaving: each thread keeps a ghost value (what it owns, how far it is), its
program only takes transitions allowed by a protocol between ghost values and states, and the
invariant survives every transition of the protocol.

## Main definitions

* `Config`, `Config.Step`, `Config.Steps`: the shared state with the threads, one step of any
  thread, and any number of steps.
* `Program.Obeys`, `Program.StepsBy`: a program follows a protocol; all its steps are in a relation.

* `othersOwn`: of what the threads own, the part that is not a given thread's.

## Main results

* `Config.invariant_of_obeys`: an invariant that the protocol preserves holds after any steps.
* `Config.steps_of_reaches`, `steps_run`, `exists_returns`: a thread may run for a while or to its
  end while the others wait, and so all of them may.
* `Config.run_of_steps`: a single thread has one run only.
-/

namespace YcsbC

variable {ι σ α β γ : Type}

/-- A shared state and the programs of the threads, each as far as it still has to run. -/
structure Config (ι σ α : Type) where
  state : σ
  thread : ι → Program σ α

/-- All threads have ended, the thread `i` with the result `r i`. -/
def Config.Returns (c : Config ι σ α) (r : ι → α) : Prop :=
  ∀ i, c.thread i = pure (r i)

namespace Program

/-- The program follows a protocol from the ghost value `g`: in every state that is `allowed` for
its ghost value, its next atomic step is a transition `move` of the protocol to some ghost value,
and its result satisfies `post` with the last ghost value. -/
def Obeys (allowed : γ → σ → Prop) (move : γ → σ → γ → σ → Prop) (post : γ → α → Prop) :
    Program σ α → γ → Prop
  | done a, g => post g a
  | atom act cont, g => ∀ s, allowed g s →
      ∃ g', move g s g' (act s) ∧ (cont s).Obeys allowed move post g'

section Obeys

variable {allowed : γ → σ → Prop} {move : γ → σ → γ → σ → Prop} {post : γ → α → Prop}

theorem obeys_pure {a : α} {g : γ} (h : post g a) :
    (pure a : Program σ α).Obeys allowed move post g :=
  h

theorem obeys_atomic {f : σ → α × σ} {g : γ}
    (h : ∀ s, allowed g s → ∃ g', move g s g' (f s).2 ∧ post g' (f s).1) :
    (atomic f).Obeys allowed move post g :=
  h

/-- The rule of composition: the second program starts where the first one ends. -/
theorem Obeys.bind {mid : γ → β → Prop} {p : Program σ β} {k : β → Program σ α} {g : γ}
    (hp : p.Obeys allowed move mid g)
    (hk : ∀ b g', mid g' b → (k b).Obeys allowed move post g') :
    (p >>= k).Obeys allowed move post g := by
  induction p generalizing g with
  | done b => exact hk b g hp
  | atom act cont ih =>
    intro s hs
    obtain ⟨g', hmove, hcont⟩ := hp s hs
    exact ⟨g', hmove, ih s hcont⟩

/-- One atomic step followed by a program. -/
theorem obeys_atomic_bind {f : σ → β × σ} {k : β → Program σ α} {g : γ}
    (h : ∀ s, allowed g s →
      ∃ g', move g s g' (f s).2 ∧ (k (f s).1).Obeys allowed move post g') :
    (atomic f >>= k).Obeys allowed move post g :=
  h

theorem obeys_atomic_bind_of_eq {f : σ → β × σ} {k : β → Program σ α} {g : γ}
    (h : ∀ s, allowed g s →
      ∃ g' b, (f s).1 = b ∧ move g s g' (f s).2 ∧ (k b).Obeys allowed move post g') :
    (atomic f >>= k).Obeys allowed move post g :=
  obeys_atomic_bind fun s hs => by
    obtain ⟨g', b, rfl, hmove, hrest⟩ := h s hs
    exact ⟨g', hmove, hrest⟩

theorem Obeys.mono {post' : γ → α → Prop} {p : Program σ α} {g : γ}
    (hp : p.Obeys allowed move post g) (h : ∀ g a, post g a → post' g a) :
    p.Obeys allowed move post' g := by
  induction p generalizing g with
  | done a => exact h g a hp
  | atom act cont ih =>
    intro s hs
    obtain ⟨g', hmove, hcont⟩ := hp s hs
    exact ⟨g', hmove, ih s hcont⟩

/-- A program over a part of the state follows a protocol of the whole state. The ghost value `g₀`
of the part is `f g₀` for the whole. -/
theorem Obeys.zoom {τ γ₀ : Type} {part : Part τ σ} {allowed₀ : γ₀ → σ → Prop}
    {move₀ : γ₀ → σ → γ₀ → σ → Prop} {post₀ : γ₀ → α → Prop} {allowed : γ → τ → Prop}
    {move : γ → τ → γ → τ → Prop} {post : γ → α → Prop} {p : Program σ α} {g₀ : γ₀}
    (hp : p.Obeys allowed₀ move₀ post₀ g₀) (f : γ₀ → γ)
    (hallowed : ∀ g t, allowed (f g) t → allowed₀ g (part.get t))
    (hmove : ∀ g t g' s', allowed (f g) t → move₀ g (part.get t) g' s' →
      move (f g) t (f g') (part.set s' t))
    (hpost : ∀ g a, post₀ g a → post (f g) a) :
    (p.zoom part).Obeys allowed move post (f g₀) := by
  induction p generalizing g₀ with
  | done a => exact hpost g₀ a hp
  | atom act cont ih =>
    intro t ht
    obtain ⟨g', hm, hcont⟩ := hp (part.get t) (hallowed g₀ t ht)
    exact ⟨f g', hmove g₀ t g' _ ht hm, ih (part.get t) hcont⟩

end Obeys

/-- Every atomic step of the program is in the relation `R`. -/
def StepsBy (R : σ → σ → Prop) (p : Program σ α) : Prop :=
  p.Obeys (fun _ _ => True) (fun (_ : Unit) s _ s' => R s s') (fun _ _ => True) ()

section StepsBy

variable {R : σ → σ → Prop}

theorem stepsBy_pure (a : α) : (pure a : Program σ α).StepsBy R := trivial

theorem stepsBy_atomic {f : σ → α × σ} (h : ∀ s, R s (f s).2) : (atomic f).StepsBy R :=
  fun s _ => ⟨(), h s, trivial⟩

theorem StepsBy.bind {p : Program σ β} {k : β → Program σ α} (hp : p.StepsBy R)
    (hk : ∀ b, (k b).StepsBy R) : (p >>= k).StepsBy R :=
  Obeys.bind hp fun b _ _ => hk b

theorem StepsBy.reflTransGen_run {p : Program σ α} (hp : p.StepsBy R) (s : σ) :
    Relation.ReflTransGen R s (p.run s).2 := by
  induction p generalizing s with
  | done a => exact .refl
  | atom act cont ih =>
    obtain ⟨_, hR, hcont⟩ := hp s trivial
    exact .head hR (ih s hcont (act s))

theorem stepsBy_of_forall (hR : ∀ s s', R s s') (p : Program σ α) : p.StepsBy R := by
  induction p with
  | done a => exact trivial
  | atom act cont ih => exact fun s _ => ⟨(), hR s (act s), ih s⟩

variable {allowed : γ → σ → Prop} {move : γ → σ → γ → σ → Prop} {g : γ}

theorem StepsBy.obeys {p : Program σ α} (hp : p.StepsBy R)
    (h : ∀ s s', allowed g s → R s s' → move g s g s') :
    p.Obeys allowed move (fun g' _ => g' = g) g := by
  induction p with
  | done a => exact rfl
  | atom act cont ih =>
    intro s hs
    obtain ⟨_, hR, hcont⟩ := hp s trivial
    exact ⟨g, h s (act s) hs hR, ih s hcont⟩

theorem StepsBy.zoom_obeys {τ : Type} {part : Part τ σ} {allowed : γ → τ → Prop}
    {move : γ → τ → γ → τ → Prop} {p : Program σ α} (hp : p.StepsBy R)
    (h : ∀ t s', allowed g t → R (part.get t) s' → move g t g (part.set s' t)) :
    (p.zoom part).Obeys allowed move (fun g' _ => g' = g) g :=
  Obeys.zoom hp (fun _ => g) (fun _ _ _ => trivial) (fun _ t _ s' ht hR => h t s' ht hR)
    fun _ _ _ => rfl

theorem StepsBy.zoom {τ : Type} {part : Part τ σ} {R' : τ → τ → Prop} {p : Program σ α}
    (hp : p.StepsBy R) (h : ∀ t s', R (part.get t) s' → R' t (part.set s' t)) :
    (p.zoom part).StepsBy R' :=
  Obeys.zoom hp id (fun _ _ _ => trivial) (fun _ t _ s' _ hR => h t s' hR) fun _ _ _ => trivial

end StepsBy

end Program

namespace Config

variable [DecidableEq ι]

/-- One atomic step of one thread. -/
inductive Step : Config ι σ α → Config ι σ α → Prop
  | atom (c : Config ι σ α) (i : ι) (act : σ → σ) (cont : σ → Program σ α)
      (h : c.thread i = .atom act cont) :
      Step c ⟨act c.state, Function.update c.thread i (cont c.state)⟩

/-- Any number of atomic steps, by any threads in any order. -/
def Steps : Config ι σ α → Config ι σ α → Prop :=
  Relation.ReflTransGen Step

/-- The threads follow a protocol from ghost values for which the invariant holds. -/
def Follows (allowed : ι → γ → σ → Prop) (move : ι → γ → σ → γ → σ → Prop)
    (post : ι → γ → α → Prop) (inv : (ι → γ) → σ → Prop) (c : Config ι σ α) : Prop :=
  ∃ g, inv g c.state ∧ ∀ i, (c.thread i).Obeys (allowed i) (move i) (post i) (g i)

section Follows

variable {allowed : ι → γ → σ → Prop} {move : ι → γ → σ → γ → σ → Prop}
  {post : ι → γ → α → Prop} {inv : (ι → γ) → σ → Prop} {c c' : Config ι σ α}

theorem Follows.step (hallowed : ∀ g s i, inv g s → allowed i (g i) s)
    (hmove : ∀ g s i g' s', inv g s → move i (g i) s g' s' → inv (Function.update g i g') s')
    (hc : c.Follows allowed move post inv) (h : Step c c') :
    c'.Follows allowed move post inv := by
  cases h with
  | atom i act cont hi =>
    obtain ⟨g, hinv, hobeys⟩ := hc
    have hthread := hobeys i
    rw [hi] at hthread
    obtain ⟨g', hm, hcont⟩ := hthread c.state (hallowed g c.state i hinv)
    refine ⟨Function.update g i g', hmove g c.state i g' _ hinv hm, fun j => ?_⟩
    by_cases hj : j = i
    · subst hj
      simpa only [Function.update_self] using hcont
    · simpa only [Function.update_of_ne hj] using hobeys j

/-- **Invariants of interleavings.** If every transition of the protocol preserves the invariant,
then the invariant holds, for some ghost values, after any steps of the threads. -/
theorem invariant_of_obeys (hallowed : ∀ g s i, inv g s → allowed i (g i) s)
    (hmove : ∀ g s i g' s', inv g s → move i (g i) s g' s' → inv (Function.update g i g') s')
    (hc : c.Follows allowed move post inv) (h : Steps c c') :
    c'.Follows allowed move post inv := by
  induction h with
  | refl => exact hc
  | tail _ hstep ih => exact ih.step hallowed hmove hstep

omit [DecidableEq ι] in
/-- When all threads have ended, their results satisfy what the protocol promises. -/
theorem Follows.returns {r : ι → α} (hc : c.Follows allowed move post inv) (hr : c.Returns r) :
    ∃ g, inv g c.state ∧ ∀ i, post i (g i) (r i) := by
  obtain ⟨g, hinv, hobeys⟩ := hc
  refine ⟨g, hinv, fun i => ?_⟩
  have h := hobeys i
  rw [hr i] at h
  exact h

end Follows

/-- A thread may run for a while when the others wait. -/
theorem steps_of_reaches {G : σ → σ → Prop} {s s' : σ} {t : ι → Program σ α} {i : ι}
    {p' : Program σ α} (h : (t i).Reaches G s p' s') :
    Steps ⟨s, t⟩ ⟨s', Function.update t i p'⟩ := by
  generalize hp : t i = p at h
  induction h generalizing t with
  | refl p s =>
    have h : Function.update t i p = t := by
      rw [← hp, Function.update_eq_self]
    rw [h]
    exact .refl
  | @atom act cont s p' s' _ _ ih =>
    have hrest := ih (t := Function.update t i (cont s)) (Function.update_self ..)
    rw [Function.update_idem] at hrest
    exact .head (.atom ⟨s, t⟩ i act cont hp) hrest

/-- A thread may run to its end while the others wait. -/
theorem steps_run (s : σ) (thread : ι → Program σ α) (i : ι) :
    Steps ⟨s, thread⟩
      ⟨((thread i).run s).2, Function.update thread i (pure ((thread i).run s).1)⟩ :=
  steps_of_reaches ((thread i).reaches_run s)

/-- Two threads may run one after the other. -/
theorem steps_run_two (s : σ) (thread : Fin 2 → Program σ α) :
    ∃ r : Fin 2 → α, Steps ⟨s, thread⟩
      ⟨((thread 1).run ((thread 0).run s).2).2, fun i => pure (r i)⟩ := by
  have hfirst := steps_run s thread 0
  have hsecond := steps_run ((thread 0).run s).2
    (Function.update thread 0 (pure ((thread 0).run s).1)) 1
  rw [Function.update_of_ne (by decide)] at hsecond
  have hthreads : Function.update (Function.update thread 0 (pure ((thread 0).run s).1)) 1
      (pure ((thread 1).run ((thread 0).run s).2).1) =
      fun i => pure (![((thread 0).run s).1, ((thread 1).run ((thread 0).run s).2).1] i) :=
    funext (Fin.forall_fin_two.2 ⟨rfl, rfl⟩)
  rw [hthreads] at hsecond
  exact ⟨_, hfirst.trans hsecond⟩

/-- A thread without others beside it runs alone. -/
theorem run_of_steps [Subsingleton ι] {c c' : Config ι σ α} (h : Steps c c') (i : ι) :
    (c'.thread i).run c'.state = (c.thread i).run c.state := by
  induction h with
  | refl => rfl
  | @tail c₁ _ _ hstep ih =>
    rw [← ih]
    cases hstep with
    | atom j act cont hj =>
      obtain rfl := Subsingleton.elim i j
      show (Function.update c₁.thread i (cont c₁.state) i).run (act c₁.state) = _
      rw [Function.update_self, hj]
      rfl

/-- All threads can run to their ends, one after the other. -/
theorem exists_returns [Finite ι] (c : Config ι σ α) :
    ∃ (s : σ) (r : ι → α), Steps c ⟨s, fun i => pure (r i)⟩ := by
  have hsome : ∀ l : List ι, ∃ c', Steps c c' ∧ ∀ i ∈ l, ∃ a, c'.thread i = pure a := by
    intro l
    induction l with
    | nil => exact ⟨c, .refl, fun i hi => by cases hi⟩
    | cons i l ih =>
      obtain ⟨⟨s, thread⟩, hsteps, hl⟩ := ih
      refine ⟨_, hsteps.trans (steps_run s thread i), fun j hj => ?_⟩
      by_cases hji : j = i
      · subst hji
        exact ⟨_, Function.update_self ..⟩
      · obtain ⟨a, ha⟩ := hl j ((List.mem_cons.1 hj).resolve_left hji)
        exact ⟨a, (Function.update_of_ne hji ..).trans ha⟩
  obtain ⟨l, hl⟩ := Finite.exists_univ_list ι
  obtain ⟨⟨s, thread⟩, hsteps, hthread⟩ := hsome l
  choose r hr using fun i => hthread i (hl.2 i)
  have hthreads : thread = fun i => pure (r i) := funext hr
  exact ⟨s, r, by rwa [hthreads] at hsteps⟩

theorem step_atomic_bind {f : σ → β × σ} {k : β → Program σ α} {s : σ}
    {thread : ι → Program σ α} {i : ι} (h : thread i = Program.atomic f >>= k) :
    Step ⟨s, thread⟩ ⟨(f s).2, Function.update thread i (k (f s).1)⟩ :=
  .atom ⟨s, thread⟩ i (fun s => (f s).2) (fun s => k (f s).1) h

end Config

/-! ### What the threads own

An invariant over all threads often says that each owns some blocks and that no block has two
owners. A step of the thread `i` sees its own blocks and those of the others. -/

section Owners

variable {R : Type} {own : ι → Set R} {i : ι} {o : Set R}

/-- What the threads other than `i` own. -/
def othersOwn (own : ι → Set R) (i : ι) : Set R :=
  {x | ∃ j, j ≠ i ∧ x ∈ own j}

theorem subset_othersOwn {j : ι} (hj : j ≠ i) : own j ⊆ othersOwn own i :=
  fun _ hx => ⟨j, hj, hx⟩

theorem disjoint_othersOwn (h : Pairwise fun j k => Disjoint (own j) (own k)) :
    Disjoint (othersOwn own i) (own i) := by
  rw [Set.disjoint_left]
  rintro x ⟨j, hj, hx⟩
  exact Set.disjoint_left.1 (h hj) hx

variable [DecidableEq ι]

/-- All blocks are those of the others and those of `i`. -/
theorem iUnion_own_update (own : ι → Set R) (i : ι) (o : Set R) :
    ⋃ j, Function.update own i o j = othersOwn own i ∪ o := by
  ext x
  simp only [Set.mem_iUnion, Set.mem_union, othersOwn, Set.mem_ofPred_eq]
  constructor
  · rintro ⟨j, hx⟩
    by_cases hj : j = i
    · subst hj
      exact .inr (by simpa only [Function.update_self] using hx)
    · exact .inl ⟨j, hj, by simpa only [Function.update_of_ne hj] using hx⟩
  · rintro (⟨j, hj, hx⟩ | hx)
    · exact ⟨j, by simpa only [Function.update_of_ne hj] using hx⟩
    · exact ⟨i, by simpa only [Function.update_self] using hx⟩

theorem iUnion_own (own : ι → Set R) (i : ι) : ⋃ j, own j = othersOwn own i ∪ own i := by
  rw [← iUnion_own_update, Function.update_eq_self]

/-- The owners stay apart when `i` exchanges its blocks for others that nobody owned. -/
theorem pairwise_own_update (h : Pairwise fun j k => Disjoint (own j) (own k))
    (ho : Disjoint (othersOwn own i) o) :
    Pairwise fun j k => Disjoint (Function.update own i o j) (Function.update own i o k) := by
  intro j k hjk
  by_cases hj : j = i
  · subst hj
    rw [Function.update_self, Function.update_of_ne hjk.symm]
    exact (ho.mono_left (subset_othersOwn hjk.symm)).symm
  · rw [Function.update_of_ne hj]
    by_cases hk : k = i
    · subst hk
      rw [Function.update_self]
      exact ho.mono_left (subset_othersOwn hj)
    · rw [Function.update_of_ne hk]
      exact h hjk

end Owners

end YcsbC
