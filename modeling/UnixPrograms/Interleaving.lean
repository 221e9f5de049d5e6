/-
Interleavings of threads, as runs of atomic actions.

An action of some thread can be `blocked` in a state (it is not that thread's
turn to do it), it can `fault`, or it leads to a next state.

* `Run step s as t` — the actions `as` lead from `s` to `t`;
* `exec step s as` — runs them, for actions that are given;
* `Reachable step s t` — some interleaving leads from `s` to `t`;
* `StatesMeet Good s as`, `StepsMeet P s as` — what every state, and every step,
  of a run satisfies, given the actions before it;
* `total w f` — a weight summed over all threads, which changes by one term
  when one thread moves (`total_update`).
-/
import Mathlib.Tactic
import Mathlib.Algebra.BigOperators.Fin

namespace Interleaving

/-- What an action does in a state. -/
inductive Outcome (σ : Type*) where
  | blocked
  | fault
  | next (s : σ)

/-- The actions of a list, one after the other, none of them blocked or faulting. -/
inductive Run {σ ι : Type*} (step : σ → ι → Outcome σ) : σ → List ι → σ → Prop
  | nil (s : σ) : Run step s [] s
  | cons {s t u : σ} {a : ι} {as : List ι} :
      step s a = .next t → Run step t as u → Run step s (a :: as) u

variable {σ ι : Type*} {step : σ → ι → Outcome σ} {s t u : σ} {as bs : List ι}

/-- Runs a list of actions; the first one that is blocked or faults ends it. -/
def exec (step : σ → ι → Outcome σ) (s : σ) : List ι → Outcome σ
  | [] => .next s
  | a :: as =>
    match step s a with
    | .next t => exec step t as
    | .blocked => .blocked
    | .fault => .fault

theorem run_of_exec (h : exec step s as = .next t) : Run step s as t := by
  induction as generalizing s with
  | nil =>
    obtain rfl := Outcome.next.inj h
    exact .nil s
  | cons a as ih =>
    cases hstep : step s a with
    | blocked | fault =>
      rw [exec, hstep] at h
      exact absurd h (by simp)
    | next u =>
      rw [exec, hstep] at h
      exact .cons hstep (ih h)

/-- Some interleaving leads from one state to the other. -/
def Reachable (step : σ → ι → Outcome σ) (s t : σ) : Prop := ∃ as, Run step s as t

theorem Run.append (h : Run step s as t) (h' : Run step t bs u) :
    Run step s (as ++ bs) u := by
  induction h with
  | nil => exact h'
  | cons hstep _ ih => exact .cons hstep (ih h')

/-- **Invariants of a run** whose actions all satisfy `P`. -/
theorem Run.invariant_on {P : ι → Prop} (Inv : σ → Prop)
    (hstep : ∀ s a t, P a → Inv s → step s a = .next t → Inv t)
    (h : Run step s as t) (hP : ∀ a ∈ as, P a) (hs : Inv s) : Inv t := by
  induction h with
  | nil => exact hs
  | @cons s t u a as ha _ ih =>
    exact ih (fun b hb => hP b (List.mem_cons_of_mem a hb))
      (hstep s a t (hP a List.mem_cons_self) hs ha)

/-- **A run paid from a potential.**  If every step takes one from the potential,
its action paying for what it adds, the potential and the payments bound the run. -/
theorem Run.length_add_le (pot : σ → ℕ) (cost : ι → ℕ) (Inv : σ → Prop)
    (hstep : ∀ s a t, Inv s → step s a = .next t → Inv t ∧ pot t + 1 ≤ pot s + cost a)
    (h : Run step s as t) (hs : Inv s) :
    as.length + pot t ≤ pot s + (as.map cost).sum := by
  induction h with
  | nil s => simp
  | @cons s u t a as ha _ ih =>
    obtain ⟨hu, hpaid⟩ := hstep s a u hs ha
    have hrest := ih hu
    rw [List.length_cons, List.map_cons, List.sum_cons]
    omega

theorem Reachable.refl (s : σ) : Reachable step s s := ⟨[], .nil s⟩

theorem Reachable.trans (h : Reachable step s t) (h' : Reachable step t u) :
    Reachable step s u := by
  obtain ⟨as, h⟩ := h
  obtain ⟨bs, h'⟩ := h'
  exact ⟨as ++ bs, h.append h'⟩

theorem Reachable.head {a : ι} (ha : step s a = .next t) (h : Reachable step t u) :
    Reachable step s u := by
  obtain ⟨as, h⟩ := h
  exact ⟨a :: as, .cons ha h⟩

theorem Reachable.tail {a : ι} (h : Reachable step s t) (ha : step t a = .next u) :
    Reachable step s u :=
  h.trans (.head ha (.refl u))

/-- **Invariants of every reachable state.**  The step lemma may use that the
state before the step is reachable. -/
theorem Reachable.invariant {s₀ : σ} (Inv : σ → Prop) (h₀ : Inv s₀)
    (hstep : ∀ {s a t}, Reachable step s₀ s → Inv s → step s a = .next t → Inv t)
    (h : Reachable step s₀ t) : Inv t := by
  obtain ⟨as, h⟩ := h
  refine (h.invariant_on (P := fun _ => True) (fun s => Reachable step s₀ s ∧ Inv s)
    (fun s a t _ hs ha => ?_) (fun _ _ => trivial) ⟨.refl s₀, h₀⟩).2
  exact ⟨hs.1.tail ha, hstep hs.1 hs.2 ha⟩

/-! ### Every state and every step of a run -/

/-- The last action of a run. -/
theorem run_concat {a : ι} :
    Run step s (as ++ [a]) t ↔ ∃ u, Run step s as u ∧ step u a = .next t := by
  constructor
  · intro h
    induction as generalizing s with
    | nil =>
      rcases h with _ | ⟨ha, hrun⟩
      cases hrun
      exact ⟨s, .nil s, ha⟩
    | cons b as ih =>
      rcases h with _ | ⟨hb, hrun⟩
      obtain ⟨u, hu, ha⟩ := ih hrun
      exact ⟨u, .cons hb hu, ha⟩
  · rintro ⟨u, hu, ha⟩
    exact hu.append (.cons ha (.nil t))

/-- Every state that a run of these actions passes is good, given the actions
that led to it. -/
def StatesMeet (step : σ → ι → Outcome σ) (Good : List ι → σ → Prop) (s : σ)
    (as : List ι) : Prop :=
  ∀ past t, past <+: as → Run step s past t → Good past t

/-- Every step that a run of these actions takes satisfies `P`, given the actions
before it. -/
def StepsMeet (step : σ → ι → Outcome σ) (P : List ι → σ → ι → Prop) (s : σ)
    (as : List ι) : Prop :=
  ∀ past a t u, past ++ [a] <+: as → Run step s past t → step t a = .next u → P past t a

/-- **The exact condition for the states of a run.**  If, under an invariant, a
step from a good state leads to a good state exactly when it satisfies `P`, all
states are good exactly when all steps satisfy `P`. -/
theorem statesMeet_iff_stepsMeet {Good : List ι → σ → Prop} {P : List ι → σ → ι → Prop}
    (Inv : σ → Prop) (h₀ : Inv s) (hgood₀ : Good [] s)
    (hgood : ∀ past t a u, Inv t → Good past t → step t a = .next u →
      (Good (past ++ [a]) u ↔ P past t a))
    (hinv : ∀ past t a u, Inv t → Good (past ++ [a]) u → step t a = .next u → Inv u) :
    StatesMeet step Good s as ↔ StepsMeet step P s as := by
  constructor
  · intro hall
    -- the invariant reaches as far as the states are known to be good
    have hreach : ∀ past t, past <+: as → Run step s past t → Inv t := by
      intro past
      induction past using List.reverseRecOn with
      | nil =>
        intro t _ hrun
        cases hrun
        exact h₀
      | append_singleton past a ih =>
        intro t hpast hrun
        obtain ⟨u, hu, ha⟩ := run_concat.mp hrun
        have hshort : past <+: as := (List.prefix_append past [a]).trans hpast
        exact hinv past u a t (ih u hshort hu) (hall _ t hpast hrun) ha
    intro past a t u hpast hrun ha
    have hshort : past <+: as := (List.prefix_append past [a]).trans hpast
    exact (hgood past t a u (hreach past t hshort hrun) (hall past t hshort hrun) ha).mp
      (hall _ u hpast (run_concat.mpr ⟨t, hrun, ha⟩))
  · intro hsteps
    have hreach : ∀ past t, past <+: as → Run step s past t → Inv t ∧ Good past t := by
      intro past
      induction past using List.reverseRecOn with
      | nil =>
        intro t _ hrun
        cases hrun
        exact ⟨h₀, hgood₀⟩
      | append_singleton past a ih =>
        intro t hpast hrun
        obtain ⟨u, hu, ha⟩ := run_concat.mp hrun
        have hshort : past <+: as := (List.prefix_append past [a]).trans hpast
        obtain ⟨hInv, hGood⟩ := ih u hshort hu
        have hnext := (hgood past u a t hInv hGood ha).mpr (hsteps past a u t hpast hu ha)
        exact ⟨hinv past u a t hInv hnext ha, hnext⟩
    intro past t hpast hrun
    exact (hreach past t hpast hrun).2

/-! ### Sums over the threads -/

section Total

variable {θ β M : Type*} [Fintype θ] [AddCommMonoid M]

/-- The weights of all threads together. -/
def total (w : β → M) (f : θ → β) : M := ∑ i, w (f i)

/-- **One thread moves.**  Its old weight is exchanged for its new one, also
when the weights are read off a state that changed for this thread only. -/
theorem total_update_of_ne [DecidableEq θ] {w w' : β → M} {f : θ → β} {i : θ} (v : β)
    (h : ∀ j, j ≠ i → w' (f j) = w (f j)) :
    total w' (Function.update f i v) + w (f i) = total w f + w' v := by
  have hrest : ∑ j ∈ Finset.univ.erase i, w' (Function.update f i v j)
      = ∑ j ∈ Finset.univ.erase i, w (f j) := by
    refine Finset.sum_congr rfl fun j hj => ?_
    have hne := (Finset.mem_erase.mp hj).1
    rw [Function.update_of_ne hne, h j hne]
  unfold total
  rw [← Finset.add_sum_erase _ _ (Finset.mem_univ i), hrest, Function.update_self,
    ← Finset.add_sum_erase _ _ (Finset.mem_univ i)]
  abel

theorem total_update [DecidableEq θ] (w : β → M) (f : θ → β) (i : θ) (v : β) :
    total w (Function.update f i v) + w (f i) = total w f + w v :=
  total_update_of_ne v fun _ _ => rfl

variable {w w' : β → ℕ} {f : θ → β}

theorem le_total (w : β → ℕ) (f : θ → β) (i : θ) : w (f i) ≤ total w f :=
  Finset.single_le_sum (f := fun i => w (f i)) (fun _ _ => Nat.zero_le _) (Finset.mem_univ i)

theorem total_mono (h : ∀ b, w b ≤ w' b) : total w f ≤ total w' f :=
  Finset.sum_le_sum fun i _ => h (f i)

theorem total_lt_total {g : θ → β} (hle : ∀ i, w (f i) ≤ w (g i))
    (hlt : ∃ i, w (f i) < w (g i)) : total w f < total w g := by
  obtain ⟨i, hi⟩ := hlt
  exact Finset.sum_lt_sum (fun j _ => hle j) ⟨i, Finset.mem_univ i, hi⟩

theorem total_eq_zero : total w f = 0 ↔ ∀ i, w (f i) = 0 := by
  rw [total, Finset.sum_eq_zero_iff]
  exact ⟨fun h i => h i (Finset.mem_univ i), fun h i _ => h i⟩

/-- Only one thread has a weight. -/
theorem total_eq_single (i : θ) (h : ∀ j, j ≠ i → w (f j) = 0) : total w f = w (f i) :=
  Finset.sum_eq_single i (fun j _ hj => h j hj) fun hi => absurd (Finset.mem_univ i) hi

end Total

end Interleaving
