import Mathlib.Algebra.BigOperators.Group.Finset.Piecewise
import Mathlib.Algebra.Ring.Nat
import YcsbC.Ceph.CephCall

/-!
# What a call adds to the counters

In the transaction phase every call adds 1 to `ops` and one duration to the vector of its kind, in
this order; in the load phase an `Insert` adds nothing. What the calls of a list are still to add is
their debt, and a run pays it off.

## Main definitions

* `Counter`: `ops` and the sizes of the vectors.
* `Due`, `CephRequest.due`: what a request is still to add.
* `CephRequest.IsLoading`, `Ahead`: what a thread may have left in the two stages.
* `callsOf`: the calls among the requests that are left.
* `owing`, `owingAll`: what the requests of one thread, and of all threads, are to add.

## Main results

* `owingAll_transactions`: the debt of the transaction threads, by kinds of calls.
* `owingAll_made`: it is that of the calls that have been made and of those that are left.
-/

namespace YcsbC

/-- `ops` and the sizes of the vectors of durations. -/
inductive Counter where
  | ops
  | time (v : TimeVector)
  deriving DecidableEq, Repr

/-- What a request is still to add: 1 to `ops` and then a duration to a vector; only the duration;
nothing. -/
inductive Due where
  | call (v : TimeVector)
  | time (v : TimeVector)
  | nothing
  deriving DecidableEq, Repr

/-- What is still to be added to a counter. -/
def Due.amount : Due → Counter → ℕ
  | call _, .ops => 1
  | call v, .time w => if v = w then 1 else 0
  | time _, .ops => 0
  | time v, .time w => if v = w then 1 else 0
  | nothing, _ => 0

theorem grow_apply (times : TimeVector → ℕ) (v w : TimeVector) :
    Function.update times v (times v + 1) w = times w + (Due.time v).amount (.time w) := by
  by_cases hw : v = w
  · rw [hw, Function.update_self, Due.amount, if_pos rfl]
  · rw [Function.update_of_ne (Ne.symm hw), Due.amount, if_neg hw, Nat.add_zero]

/-- What a request adds in a phase. -/
def CephRequest.dueIn (phase : Phase) : CephRequest → Due
  | init _ => .nothing
  | call (.insert _) => if phase = .transaction then .call .insertTime else .nothing
  | call c => .call c.timeVector

/-- What a request adds in the transaction phase. -/
def CephRequest.due : CephRequest → Due
  | init _ => .nothing
  | call c => .call c.timeVector

@[simp] theorem CephRequest.dueIn_transaction (r : CephRequest) : r.dueIn .transaction = r.due := by
  cases r with
  | init flag => rfl
  | call c => cases c <;> rfl

/-- The phase after a request. -/
def CephRequest.phaseAfter (phase : Phase) : CephRequest → Phase
  | init flag => if flag then .load else .transaction
  | call _ => phase

/-! ### The requests of the two stages -/

/-- What a load thread may ask. -/
def CephRequest.IsLoading (r : CephRequest) : Prop :=
  r = .init true ∨ ∃ key, r = .call (.insert key)

theorem isLoading_of_mem_loadRequests {keys : List Str} {r : CephRequest}
    (h : r ∈ loadRequests keys) : r.IsLoading := by
  rcases List.mem_cons.1 h with h | h
  · exact .inl h
  · obtain ⟨key, -, rfl⟩ := List.mem_map.1 h
    exact .inr ⟨key, rfl⟩

/-- A loading request owes nothing and keeps the phase out of `TRANSACTION`. -/
theorem CephRequest.IsLoading.dueIn {r : CephRequest} (h : r.IsLoading) {phase : Phase}
    (hphase : phase ≠ .transaction) :
    r.dueIn phase = .nothing ∧ r.phaseAfter phase ≠ .transaction := by
  rcases h with rfl | ⟨key, rfl⟩
  · exact ⟨rfl, by simp [phaseAfter]⟩
  · exact ⟨if_neg hphase, hphase⟩

/-- The calls among the requests. -/
def callsOf (rs : List CephRequest) : List CephCall := rs.flatMap CephRequest.calls

@[simp] theorem callsOf_nil : callsOf [] = [] := rfl

@[simp] theorem callsOf_cons (r : CephRequest) (rs : List CephRequest) :
    callsOf (r :: rs) = r.calls ++ callsOf rs := rfl

@[simp] theorem callsOf_map (calls : List CephCall) : callsOf (calls.map .call) = calls := by
  induction calls with
  | nil => rfl
  | cons c cs ih => rw [List.map_cons, callsOf_cons, ih, CephRequest.calls, List.singleton_append]

@[simp] theorem callsOf_transactionRequests (calls : List CephCall) :
    callsOf (transactionRequests calls) = calls := callsOf_map calls

/-- What a transaction thread has left of its calls, where it may not have called `Init` yet. -/
def Ahead (calls : List CephCall) (phase : Phase) (rs : List CephRequest) : Prop :=
  rs = transactionRequests calls ∨ (phase = .transaction ∧ ∃ cs, cs <:+ calls ∧ rs = cs.map .call)

section Ahead

variable {calls : List CephCall} {phase : Phase} {r : CephRequest} {rs : List CephRequest}

/-- The next request of a transaction thread owes the same in the current phase as in the
transaction phase, and the others stay ahead. -/
theorem Ahead.cons (h : Ahead calls phase (r :: rs)) :
    r.dueIn phase = r.due ∧ r.phaseAfter phase = .transaction ∧ Ahead calls .transaction rs := by
  rcases h with hcalls | ⟨rfl, cs, hsuffix, hcalls⟩
  · obtain ⟨rfl, rfl⟩ := List.cons.inj hcalls
    exact ⟨rfl, rfl, .inr ⟨rfl, calls, List.suffix_refl calls, rfl⟩⟩
  · obtain _ | ⟨c, cs⟩ := cs
    · cases hcalls
    · obtain ⟨rfl, rfl⟩ := List.cons.inj hcalls
      exact ⟨CephRequest.dueIn_transaction _, rfl,
        .inr ⟨rfl, cs, (List.suffix_cons c cs).trans hsuffix, rfl⟩⟩

/-- What is left after the next request, once it has set the phase if it is `Init`. -/
theorem Ahead.tail (h : Ahead calls phase (r :: rs))
    (hinit : ∀ flag, r = .init flag → phase = r.phaseAfter .invalid) : Ahead calls phase rs := by
  have hnext := h.cons.2.2
  rcases h with hcalls | ⟨rfl, -⟩
  · rwa [hinit false (List.cons.inj hcalls).1, (List.cons.inj hcalls).1]
  · exact hnext

theorem Ahead.of_transaction (h : Ahead calls phase rs) : Ahead calls .transaction rs :=
  h.imp_right fun ⟨_, hcalls⟩ => ⟨rfl, hcalls⟩

/-- The calls that are left are the last ones of the thread. -/
theorem Ahead.exists_made (h : Ahead calls phase rs) : ∃ made, calls = made ++ callsOf rs := by
  rcases h with rfl | ⟨-, cs, ⟨made, hmade⟩, rfl⟩
  · exact ⟨[], (callsOf_transactionRequests calls).symm⟩
  · exact ⟨made, by rw [callsOf_map, hmade]⟩

theorem Ahead.mem (h : Ahead calls phase rs) {c : CephCall} (hc : .call c ∈ rs) : c ∈ calls := by
  obtain ⟨made, hmade⟩ := h.exists_made
  rw [hmade]
  exact List.mem_append_right _ (List.mem_flatMap.2 ⟨_, hc, List.mem_singleton_self c⟩)

end Ahead

/-! ### The debt of a list of requests -/

/-- What the requests of a thread are to add. -/
def owing (rs : List CephRequest) (k : Counter) : ℕ := (rs.map fun r => r.due.amount k).sum

@[simp] theorem owing_nil (k : Counter) : owing [] k = 0 := rfl

@[simp] theorem owing_cons (r : CephRequest) (rs : List CephRequest) (k : Counter) :
    owing (r :: rs) k = r.due.amount k + owing rs k := rfl

theorem owing_transactionRequests (calls : List CephCall) (k : Counter) :
    owing (transactionRequests calls) k = owing (calls.map .call) k := by
  rw [transactionRequests, owing_cons]
  exact Nat.zero_add _

/-- `Init` owes nothing, so the debt is that of the calls. -/
theorem owing_callsOf (rs : List CephRequest) (k : Counter) :
    owing ((callsOf rs).map .call) k = owing rs k := by
  induction rs with
  | nil => rfl
  | cons r rs ih =>
    cases r with
    | init flag =>
      rw [owing_cons]
      exact ih.trans (Nat.zero_add _).symm
    | call c =>
      rw [owing_cons, ← ih]
      rfl

theorem owing_map_ops (calls : List CephCall) : owing (calls.map .call) .ops = calls.length := by
  induction calls with
  | nil => rfl
  | cons c cs ih =>
    rw [List.map_cons, owing_cons, ih, List.length_cons]
    show 1 + cs.length = cs.length + 1
    omega

theorem owing_map_time (calls : List CephCall) (v : TimeVector) :
    owing (calls.map .call) (.time v) = calls.countP fun c => c.timeVector = v := by
  induction calls with
  | nil => rfl
  | cons c cs ih =>
    rw [List.map_cons, owing_cons, ih, List.countP_cons]
    show (if c.timeVector = v then 1 else 0) + _ = _ + if decide (c.timeVector = v) then 1 else 0
    simp only [decide_eq_true_eq]
    omega

theorem length_eq_sum_countP (calls : List CephCall) :
    calls.length = (calls.countP fun c => c.timeVector = .readTime) +
      (calls.countP fun c => c.timeVector = .scanTime) +
      (calls.countP fun c => c.timeVector = .updateTime) +
      (calls.countP fun c => c.timeVector = .insertTime) +
      (calls.countP fun c => c.timeVector = .deleteTime) := by
  induction calls with
  | nil => rfl
  | cons c cs ih =>
    have hkind : c.timeVector = .readTime ∨ c.timeVector = .scanTime ∨
        c.timeVector = .updateTime ∨ c.timeVector = .insertTime ∨ c.timeVector = .deleteTime := by
      cases c <;> simp [CephCall.timeVector]
    simp only [List.length_cons, List.countP_cons, decide_eq_true_eq]
    rcases hkind with hv | hv | hv | hv | hv <;>
      simp only [hv, reduceCtorEq, if_true, if_false] <;> omega

/-! ### The debt of all threads -/

section Threads

variable {ι : Type} [Fintype ι]

/-- What the requests of all threads are to add. -/
def owingAll (requests : ι → List CephRequest) (k : Counter) : ℕ := ∑ i, owing (requests i) k

@[simp] theorem owingAll_nil (k : Counter) : owingAll (fun _ : ι => []) k = 0 :=
  Finset.sum_const_zero

/-- The requests of one thread change. -/
theorem owingAll_update [DecidableEq ι] (requests : ι → List CephRequest) (i : ι)
    (rs : List CephRequest) (k : Counter) :
    owingAll (Function.update requests i rs) k + owing (requests i) k =
      owingAll requests k + owing rs k := by
  have hupdate : ∀ j, owing (Function.update requests i rs j) k =
      Function.update (fun j => owing (requests j) k) i (owing rs k) j := fun j =>
    Function.apply_update (fun _ rs => owing rs k) requests i rs j
  have hsum := Finset.add_sum_erase Finset.univ (fun j => owing (requests j) k) (Finset.mem_univ i)
  rw [owingAll, owingAll, Finset.sum_congr rfl fun j _ => hupdate j,
    Finset.sum_update_of_mem (Finset.mem_univ i), Finset.sdiff_singleton_eq_erase]
  omega

/-- The debt of the transaction threads: the number of their calls, and of their calls of each
kind. -/
theorem owingAll_transactions (calls : ι → List CephCall) :
    owingAll (fun i => transactionRequests (calls i)) .ops = ∑ i, (calls i).length ∧
      ∀ v, owingAll (fun i => transactionRequests (calls i)) (.time v) =
        ∑ i, (calls i).countP fun c => c.timeVector = v := by
  refine ⟨Finset.sum_congr rfl fun i _ => ?_, fun v => Finset.sum_congr rfl fun i _ => ?_⟩
  · rw [owing_transactionRequests, owing_map_ops]
  · rw [owing_transactionRequests, owing_map_time]

/-- The debt of the transaction threads is that of the calls that they have made and of the requests
that they have left. -/
theorem owingAll_made {calls made : ι → List CephCall} {requests : ι → List CephRequest}
    (h : ∀ i, calls i = made i ++ callsOf (requests i)) (k : Counter) :
    owingAll (fun i => transactionRequests (calls i)) k =
      owingAll (fun i => transactionRequests (made i)) k + owingAll requests k := by
  simp only [owingAll, ← Finset.sum_add_distrib]
  refine Finset.sum_congr rfl fun i _ => ?_
  rw [owing_transactionRequests, owing_transactionRequests, h i, ← owing_callsOf (requests i)]
  simp only [owing, List.map_append, List.sum_append]

end Threads

end YcsbC
