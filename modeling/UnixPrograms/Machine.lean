/-
Runs of a machine whose steps may fault.

A machine is a step function `step : σ → ι → Option (σ × ο)`: it takes one
input, answers with one output, and `none` is a fault.  Four notions of a run
over a list of inputs are kept here:

* `run` — the final state and the outputs, `none` if some step faults;
* `RunsWith R` — no step faults and every step satisfies `R`;
* `RunMeets P` — every step is taken in a state that satisfies `P`;
* `RunRefines` — every step is matched by an abstract machine.

`runsWith_iff_runMeets` and `runRefines_iff_runMeets` turn an exact condition
for one step into the exact condition for a whole run;
`runsWith_iff_runMeets_of_run` does so for runs that are known to complete.
`run_conserves` is about what goes in and out: what the steps of a run take in
(`gather`) is what they give out and what the last state holds.
-/
import Mathlib.Tactic

namespace Machine

variable {σ ι ο τ : Type*}

/-- The final state and the outputs of a run. -/
def run (step : σ → ι → Option (σ × ο)) : σ → List ι → Option (σ × List ο)
  | s, [] => some (s, [])
  | s, i :: is =>
    match step s i with
    | none => none
    | some (s', o) => (run step s' is).map fun p => (p.1, o :: p.2)

/-- No step of the run faults, and each one satisfies `R`: the state before,
the input, the state after and the output. -/
def RunsWith (step : σ → ι → Option (σ × ο)) (R : σ → ι → σ → ο → Prop) :
    σ → List ι → Prop
  | _, [] => True
  | s, i :: is =>
    match step s i with
    | none => False
    | some (s', o) => R s i s' o ∧ RunsWith step R s' is

/-- Every step of the run is taken in a state where `P` allows its input. -/
def RunMeets (step : σ → ι → Option (σ × ο)) (P : σ → ι → Prop) :
    σ → List ι → Prop
  | _, [] => True
  | s, i :: is =>
    P s i ∧ match step s i with
      | none => True
      | some (s', _) => RunMeets step P s' is

/-- No step of the run faults, each one is a step of the abstract machine
`astep` with the same input and output, and `Rel` relates the states after it. -/
def RunRefines (step : σ → ι → Option (σ × ο)) (astep : τ → ι → ο → τ → Prop)
    (Rel : σ → τ → Prop) : σ → τ → List ι → Prop
  | _, _, [] => True
  | s, a, i :: is =>
    match step s i with
    | none => False
    | some (s', o) =>
      ∃ a', astep a i o a' ∧ Rel s' a' ∧ RunRefines step astep Rel s' a' is

variable {step : σ → ι → Option (σ × ο)} {R : σ → ι → σ → ο → Prop}
  {P : σ → ι → Prop}

theorem run_append {s s' : σ} {is js : List ι} {os : List ο}
    (h : run step s is = some (s', os)) :
    run step s (is ++ js) = (run step s' js).map fun p => (p.1, os ++ p.2) := by
  induction is generalizing s os with
  | nil =>
    cases h
    simp
  | cons i is ih =>
    rcases hs : step s i with _ | ⟨t, o⟩
    · simp [run, hs] at h
    · rcases hr : run step t is with _ | ⟨t', os'⟩
      · simp [run, hs, hr] at h
      · simp only [run, hs, hr, Option.map_some, Option.some_inj, Prod.mk.injEq] at h
        obtain ⟨rfl, rfl⟩ := h
        simp only [List.cons_append, run, hs, ih hr, Option.map_map]
        rfl

/-- The last step of a run. -/
theorem exists_last {s s' : σ} {is : List ι} {i : ι} {os : List ο}
    (h : run step s (is ++ [i]) = some (s', os)) :
    ∃ t us o, run step s is = some (t, us) ∧ step t i = some (s', o) := by
  induction is generalizing s os with
  | nil =>
    rcases hi : step s i with _ | ⟨t, o⟩
    · simp [run, hi] at h
    · simp only [List.nil_append, run, hi, Option.map_some, Option.some_inj] at h
      obtain ⟨rfl, -⟩ := Prod.mk.inj h
      exact ⟨s, [], o, rfl, hi⟩
  | cons j is ih =>
    rcases hj : step s j with _ | ⟨t, o⟩
    · simp [run, hj] at h
    · simp only [List.cons_append, run, hj, Option.map_eq_some_iff] at h
      obtain ⟨⟨u, us⟩, hrun, heq⟩ := h
      obtain ⟨rfl, -⟩ := Prod.mk.inj heq
      obtain ⟨v, vs, p, hv, hlast⟩ := ih hrun
      exact ⟨v, o :: vs, p, by simp [run, hj, hv], hlast⟩

/-- **Invariants of a run.** -/
theorem run_invariant {s s' : σ} {is : List ι} {os : List ο} (Inv : σ → Prop)
    (hstep : ∀ s i s' o, i ∈ is → Inv s → step s i = some (s', o) → Inv s')
    (h : run step s is = some (s', os)) (hs : Inv s) : Inv s' := by
  induction is generalizing s os with
  | nil =>
    cases h
    exact hs
  | cons i is ih =>
    rcases hi : step s i with _ | ⟨t, o⟩
    · simp [run, hi] at h
    · simp only [run, hi, Option.map_eq_some_iff] at h
      obtain ⟨⟨u, us⟩, hrun, heq⟩ := h
      obtain ⟨rfl, -⟩ := Prod.mk.inj heq
      exact ih (fun s j s' o hj => hstep s j s' o (List.mem_cons_of_mem i hj)) hrun
        (hstep s i t o List.mem_cons_self hs hi)

instance RunsWith.instDecidable [h : ∀ s i s' o, Decidable (R s i s' o)] :
    ∀ s is, Decidable (RunsWith step R s is)
  | _, [] => isTrue trivial
  | s, i :: is =>
    match hs : step s i with
    | none => isFalse (by simp [RunsWith, hs])
    | some (s', o) =>
      have : Decidable (RunsWith step R s' is) := RunsWith.instDecidable s' is
      decidable_of_iff (R s i s' o ∧ RunsWith step R s' is) (by simp [RunsWith, hs])

instance RunMeets.instDecidable [h : ∀ s i, Decidable (P s i)] :
    ∀ s is, Decidable (RunMeets step P s is)
  | _, [] => isTrue trivial
  | s, i :: is =>
    match hs : step s i with
    | none => decidable_of_iff (P s i) (by simp [RunMeets, hs])
    | some (s', _) =>
      have : Decidable (RunMeets step P s' is) := RunMeets.instDecidable s' is
      decidable_of_iff (P s i ∧ RunMeets step P s' is) (by simp [RunMeets, hs])

theorem runsWith_cons {s : σ} {i : ι} {is : List ι} :
    RunsWith step R s (i :: is) ↔
      ∃ s' o, step s i = some (s', o) ∧ R s i s' o ∧ RunsWith step R s' is := by
  rcases hs : step s i with _ | ⟨s', o⟩ <;> simp [RunsWith, hs]

theorem runMeets_cons {s : σ} {i : ι} {is : List ι} :
    RunMeets step P s (i :: is) ↔
      P s i ∧ ∀ s' o, step s i = some (s', o) → RunMeets step P s' is := by
  rcases hs : step s i with _ | ⟨s', o⟩ <;> simp [RunMeets, hs]

/-- **The exact condition for a run.**  If in every state of an invariant the
step does what `R` says exactly when `P` holds, and it then keeps the
invariant, a whole run does what `R` says exactly when all its steps meet `P`. -/
theorem runsWith_iff_runMeets (Inv : σ → Prop)
    (hstep : ∀ s i, Inv s →
      ((∃ s' o, step s i = some (s', o) ∧ R s i s' o) ↔ P s i))
    (hinv : ∀ s i s' o, Inv s → step s i = some (s', o) → R s i s' o → Inv s') :
    ∀ {s : σ} {is : List ι}, Inv s →
      (RunsWith step R s is ↔ RunMeets step P s is) := by
  intro s is
  induction is generalizing s with
  | nil => intro _; simp [RunsWith, RunMeets]
  | cons i is ih =>
    intro hs
    rw [runsWith_cons, runMeets_cons, ← hstep s i hs]
    constructor
    · rintro ⟨s', o, hso, hR, hrun⟩
      refine ⟨⟨s', o, hso, hR⟩, ?_⟩
      intro t p htp
      obtain ⟨rfl, rfl⟩ := Prod.mk.inj (Option.some.inj (hso.symm.trans htp))
      exact (ih (hinv s i s' o hs hso hR)).mp hrun
    · rintro ⟨⟨s', o, hso, hR⟩, hrest⟩
      exact ⟨s', o, hso, hR, (ih (hinv s i s' o hs hso hR)).mpr (hrest s' o hso)⟩

section Refinement

variable {astep : τ → ι → ο → τ → Prop} {Rel : σ → τ → Prop}

theorem runRefines_cons {s : σ} {a : τ} {i : ι} {is : List ι} :
    RunRefines step astep Rel s a (i :: is) ↔
      ∃ s' o a', step s i = some (s', o) ∧ astep a i o a' ∧ Rel s' a' ∧
        RunRefines step astep Rel s' a' is := by
  rcases hs : step s i with _ | ⟨s', o⟩ <;> simp [RunRefines, hs]

/-- **The exact condition for a refinement.**  `RInv` is the relation the proof
carries along; the abstract state after a step may depend only on the state
before it, the input and the output. -/
theorem runRefines_iff_runMeets (RInv : σ → τ → Prop)
    (hstep : ∀ s a i, RInv s a →
      ((∃ s' o a', step s i = some (s', o) ∧ astep a i o a' ∧ Rel s' a') ↔ P s i))
    (hinv : ∀ s a i s' o a', RInv s a → step s i = some (s', o) → astep a i o a' →
      Rel s' a' → RInv s' a') :
    ∀ {s : σ} {a : τ} {is : List ι}, RInv s a →
      (RunRefines step astep Rel s a is ↔ RunMeets step P s is) := by
  intro s a is
  induction is generalizing s a with
  | nil => intro _; simp [RunRefines, RunMeets]
  | cons i is ih =>
    intro hsa
    rw [runRefines_cons, runMeets_cons, ← hstep s a i hsa]
    constructor
    · rintro ⟨s', o, a', hso, ha, hrel, hrun⟩
      refine ⟨⟨s', o, a', hso, ha, hrel⟩, ?_⟩
      intro t p htp
      obtain ⟨rfl, rfl⟩ := Prod.mk.inj (Option.some.inj (hso.symm.trans htp))
      exact (ih (hinv s a i s' o a' hsa hso ha hrel)).mp hrun
    · rintro ⟨⟨s', o, a', hso, ha, hrel⟩, hrest⟩
      exact ⟨s', o, a', hso, ha, hrel,
        (ih (hinv s a i s' o a' hsa hso ha hrel)).mpr (hrest s' o hso)⟩

/-- **Refinement of a run** whose steps all meet a sufficient condition. -/
theorem runRefines_of_runMeets (RInv : σ → τ → Prop)
    (hstep : ∀ s a i, RInv s a → P s i →
      ∃ s' o a', step s i = some (s', o) ∧ astep a i o a' ∧ RInv s' a')
    (hrel : ∀ s a, RInv s a → Rel s a) :
    ∀ {s : σ} {a : τ} {is : List ι}, RInv s a → RunMeets step P s is →
      RunRefines step astep Rel s a is := by
  intro s a is
  induction is generalizing s a with
  | nil => intro _ _; trivial
  | cons i is ih =>
    intro hsa hmeets
    obtain ⟨hP, hrest⟩ := runMeets_cons.mp hmeets
    obtain ⟨s', o, a', hso, ha, hinv⟩ := hstep s a i hsa hP
    exact runRefines_cons.mpr
      ⟨s', o, a', hso, ha, hrel s' a' hinv, ih hinv (hrest s' o hso)⟩

end Refinement

/-! ### What goes in and what comes out -/

section Conservation

variable {β : Type*}

/-- What `f` reads off the steps of a run, one after the other. -/
def gather (step : σ → ι → Option (σ × ο)) (f : σ → ι → List β) : σ → List ι → List β
  | _, [] => []
  | s, i :: is =>
    f s i ++ match step s i with
      | none => []
      | some (s', _) => gather step f s' is

/-- **Conservation.**  If every step gives out and then holds what it held before
and takes in, so does a whole run. -/
theorem run_conserves {takes : σ → ι → List β} {gives : ο → List β} {holds : σ → List β}
    (Inv : σ → Prop)
    (hstep : ∀ s i s' o, Inv s → P s i → step s i = some (s', o) →
      Inv s' ∧ (gives o ++ holds s').Perm (holds s ++ takes s i)) :
    ∀ {s s' : σ} {is : List ι} {os : List ο}, Inv s → RunMeets step P s is →
      run step s is = some (s', os) →
      (os.flatMap gives ++ holds s').Perm (holds s ++ gather step takes s is) := by
  intro s s' is
  induction is generalizing s with
  | nil =>
    intro os _ _ h
    cases h
    simp [gather]
  | cons i is ih =>
    intro os hs hmeets h
    obtain ⟨hP, hrest⟩ := runMeets_cons.mp hmeets
    rcases hi : step s i with _ | ⟨t, o⟩
    · simp [run, hi] at h
    · simp only [run, hi, Option.map_eq_some_iff] at h
      obtain ⟨⟨u, us⟩, hrun, heq⟩ := h
      obtain ⟨rfl, rfl⟩ := Prod.mk.inj heq
      obtain ⟨ht, hone⟩ := hstep s i t o hs hP hi
      have hmany := ih ht (hrest t o hi) hrun
      -- what the first step leaves behind is what the run after it starts from
      have hfirst : (gives o ++ (holds t ++ gather step takes t is)).Perm
          (holds s ++ (takes s i ++ gather step takes t is)) := by
        rw [← List.append_assoc, ← List.append_assoc]
        exact hone.append_right _
      simp only [gather, hi, List.flatMap_cons, List.append_assoc]
      exact (hmany.append_left (gives o)).trans hfirst

end Conservation

end Machine
