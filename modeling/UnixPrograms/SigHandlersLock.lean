/-
`signal_handler` against the mutex of the code it interrupts.

Here a signal can arrive between any two atomic steps.  The thread has a stack of
activations, the innermost one first; a handler is one more activation on top.
As `sa_mask` is empty, only the signal that is being handled stays blocked.

* `Thread.step` — a call, the next atomic step or the return of the innermost
  activation, or the delivery of a signal;
* `Thread.HandlerWaits` — the handler is about to lock the mutex that the thread
  already holds;
* `handler_waits_iff` — this happens exactly if a signal is delivered between a
  lock and its unlock;
* `uninterrupted_run` — without such signals these are the runs of
  `SigHandlers`.
-/
import UnixPrograms.SigHandlers

namespace SigHandlerLib

open Interleaving

/-- A function that has not returned: the signal it handles, if it is
`signal_handler`, its value so far and what it still has to do. -/
structure Activation where
  handles : Option StopSignal
  result : ℤ
  todo : List Atomic

structure Thread where
  globals : Globals
  stack : List Activation

inductive Move where
  | call (c : Call)
  | advance
  | deliver (s : StopSignal)
deriving DecidableEq

def Thread.step (P : Platform) (t : Thread) : Move → Outcome Thread
  | .call c =>
    match t.stack with
    | [] =>
      let (g, r, todo) := c.enter P t.globals
      .next ⟨g, [⟨none, r, todo⟩]⟩
    | _ :: _ => .blocked
  | .advance =>
    match t.stack with
    | [] => .blocked
    | ⟨_, _, []⟩ :: below => .next ⟨t.globals, below⟩
    | ⟨h, r, a :: todo⟩ :: below =>
      match Atomic.step (t.globals, r) a with
      | .next (g, r') => .next ⟨g, ⟨h, r', todo⟩ :: below⟩
      | .blocked => .blocked
      | .fault => .fault
  | .deliver s =>
    if t.globals.installed s.number ∧ ∀ f ∈ t.stack, f.handles ≠ some s then
      .next ⟨t.globals, ⟨some s, 0, signalHandler P s.number⟩ :: t.stack⟩
    else .blocked

/-- The thread before its first call, with the mutex free. -/
def Thread.start (running : ℤ) (installed : ℤ → Bool) : Thread :=
  ⟨⟨running, false, installed⟩, []⟩

/-- The activation is between its lock and its unlock. -/
def Activation.inside (f : Activation) : Bool :=
  match f.todo with
  | [] => false
  | .lock :: _ => false
  | _ => true

/-- So is the innermost activation. -/
def Thread.inside (t : Thread) : Bool :=
  match t.stack with
  | [] => false
  | f :: _ => f.inside

/-- `signal_handler` tries to lock the mutex that an activation under it holds. -/
def Thread.HandlerWaits (t : Thread) : Prop :=
  t.globals.locked = true ∧
    ∃ s r todo below, t.stack = ⟨some s, r, .lock :: todo⟩ :: below

/-! ### Who holds the mutex -/

/-- What is left of `[lock, access, unlock]`. -/
inductive Part : List Atomic → Prop
  | done : Part []
  | unlock : Part [.unlock]
  | access {a : Atomic} : a ≠ .lock → a ≠ .unlock → Part [a, .unlock]
  | lock {a : Atomic} : a ≠ .lock → a ≠ .unlock → Part (locking a)

/-- While no handler waits, at most the innermost activation holds the mutex. -/
structure Thread.Inv (t : Thread) : Prop where
  parts : ∀ f ∈ t.stack, Part f.todo
  below : ∀ f ∈ t.stack.tail, f.inside = false
  locked : t.globals.locked = t.inside

variable {P : Platform} {t u : Thread}

theorem enter_cases (P : Platform) (g : Globals) (c : Call) :
    (c.enter P g).1.locked = g.locked ∧ Part (c.enter P g).2.2 ∧
      ∀ r, (Activation.mk none r (c.enter P g).2.2).inside = false := by
  cases c with
  | establish signum func =>
    by_cases h : Establishes P signum func
    · rw [Call.enter, establishSigHandler_of h]
      exact ⟨rfl, .lock (by simp) (by simp), fun _ => rfl⟩
    · rw [Call.enter, establishSigHandler_of_not h]
      exact ⟨rfl, .done, fun _ => rfl⟩
  | isRunning => exact ⟨rfl, .lock (by simp) (by simp), fun _ => rfl⟩
  | stop => exact ⟨rfl, .lock (by simp) (by simp), fun _ => rfl⟩

theorem Thread.Inv.not_handlerWaits (h : t.Inv) : ¬ t.HandlerWaits := by
  rintro ⟨hlocked, s, r, todo, below, hstack⟩
  rw [h.locked, Thread.inside, hstack] at hlocked
  exact absurd hlocked (by simp [Activation.inside])

theorem inv_start (running : ℤ) (installed : ℤ → Bool) : (Thread.start running installed).Inv :=
  ⟨by simp [Thread.start], by simp [Thread.start], rfl⟩

/-- An activation whose next step is its access is inside. -/
theorem inside_of_ne_lock {a : Atomic} (ha : a ≠ .lock) (h : Option StopSignal) (r : ℤ)
    (todo : List Atomic) : (Activation.mk h r (a :: todo)).inside = true := by
  cases a with
  | lock => exact absurd rfl ha
  | unlock => rfl
  | write v => rfl
  | read => rfl

/-- The innermost activation goes one step on. -/
theorem Thread.Inv.advance (h : t.Inv) (hstep : t.step P .advance = .next u) : u.Inv := by
  obtain ⟨g, stack⟩ := t
  obtain ⟨hparts, hbelow, hlocked⟩ := h
  rcases stack with _ | ⟨⟨s, r, todo⟩, below⟩
  · exact absurd hstep (by simp [Thread.step])
  · have hpart : Part todo := hparts _ List.mem_cons_self
    have hrest : ∀ f ∈ below, Part f.todo := fun f hf => hparts f (List.mem_cons_of_mem _ hf)
    -- the four positions in `[lock, access, unlock]`
    cases hpart with
    | done =>
      obtain rfl := Outcome.next.inj hstep
      refine ⟨hrest, fun f hf => hbelow f (List.mem_of_mem_tail hf), ?_⟩
      rcases below with _ | ⟨f, below⟩
      · exact hlocked
      · exact hlocked.trans (hbelow f List.mem_cons_self).symm
    | unlock =>
      obtain rfl := Outcome.next.inj hstep
      refine ⟨?_, hbelow, rfl⟩
      rintro f (_ | ⟨_, hf⟩)
      · exact .done
      · exact hrest f hf
    | @access a hlock hunlock =>
      have hnext : ∃ g' r', Atomic.step (g, r) a = .next (g', r') ∧ g'.locked = g.locked := by
        cases a with
        | lock => exact absurd rfl hlock
        | unlock => exact absurd rfl hunlock
        | write v => exact ⟨_, _, rfl, rfl⟩
        | read => exact ⟨_, _, rfl, rfl⟩
      obtain ⟨g', r', ha, hg'⟩ := hnext
      simp only [Thread.step, ha] at hstep
      obtain rfl := Outcome.next.inj hstep
      refine ⟨?_, hbelow, ?_⟩
      · rintro f (_ | ⟨_, hf⟩)
        · exact .unlock
        · exact hrest f hf
      · exact hg'.trans (hlocked.trans (inside_of_ne_lock hlock s r _))
    | @lock a hlock hunlock =>
      have hfree : g.locked = false := hlocked
      have hnext : Atomic.step (g, r) .lock = .next ({ g with locked := true }, r) := by
        rw [Atomic.step, hfree]
        rfl
      simp only [Thread.step, locking, hnext] at hstep
      obtain rfl := Outcome.next.inj hstep
      refine ⟨?_, hbelow, ?_⟩
      · rintro f (_ | ⟨_, hf⟩)
        · exact .access hlock hunlock
        · exact hrest f hf
      · exact (inside_of_ne_lock hlock s r _).symm

/-- A call is made when no other one is left. -/
theorem Thread.Inv.call {c : Call} (h : t.Inv) (hstep : t.step P (.call c) = .next u) :
    u.Inv := by
  obtain ⟨g, stack⟩ := t
  rcases stack with _ | ⟨f, below⟩
  · obtain ⟨hlocked, hpart, hinside⟩ := enter_cases P g c
    obtain rfl := Outcome.next.inj hstep
    refine ⟨?_, by simp, ?_⟩
    · rintro f (_ | ⟨_, hf⟩)
      · exact hpart
      · cases hf
    · exact hlocked.trans (h.locked.trans (hinside _).symm)
  · exact absurd hstep (by simp [Thread.step])

theorem deliver_eq {s : StopSignal} (hstep : t.step P (.deliver s) = .next u) :
    u = ⟨t.globals, ⟨some s, 0, locking (.write 0)⟩ :: t.stack⟩ := by
  rw [Thread.step] at hstep
  split at hstep
  · rw [signalHandler_number] at hstep
    exact (Outcome.next.inj hstep).symm
  · exact absurd hstep (by simp)

/-- A handler that starts outside every locked section finds the mutex free. -/
theorem Thread.Inv.deliver {s : StopSignal} (h : t.Inv) (hout : t.inside = false)
    (hstep : t.step P (.deliver s) = .next u) : u.Inv := by
  rw [deliver_eq hstep]
  refine ⟨?_, ?_, h.locked.trans hout⟩
  · rintro f (_ | ⟨_, hf⟩)
    · exact .lock (by simp) (by simp)
    · exact h.parts f hf
  · intro f hf
    obtain ⟨g, stack⟩ := t
    rcases stack with _ | ⟨f', below⟩
    · exact absurd hf (by simp)
    · rcases hf with _ | ⟨_, hf⟩
      · exact hout
      · exact h.below f hf

/-- One that starts inside waits for the activation under it. -/
theorem Thread.Inv.handlerWaits {s : StopSignal} (h : t.Inv) (hin : t.inside = true)
    (hstep : t.step P (.deliver s) = .next u) : u.HandlerWaits := by
  rw [deliver_eq hstep]
  exact ⟨h.locked.trans hin, s, 0, _, _, rfl⟩

/-- The signal comes between a lock and its unlock. -/
def Thread.Interrupts (t : Thread) : Move → Prop
  | .deliver _ => t.inside = true
  | _ => False

theorem step_handlerWaits_iff {m : Move} (h : t.Inv) (hstep : t.step P m = .next u) :
    (¬ u.HandlerWaits ↔ ¬ t.Interrupts m) ∧ (¬ u.HandlerWaits → u.Inv) := by
  cases m with
  | call c =>
    have hu := h.call hstep
    exact ⟨iff_of_true hu.not_handlerWaits id, fun _ => hu⟩
  | advance =>
    have hu := h.advance hstep
    exact ⟨iff_of_true hu.not_handlerWaits id, fun _ => hu⟩
  | deliver s =>
    by_cases hin : t.inside = true
    · have hu := h.handlerWaits hin hstep
      exact ⟨iff_of_false (not_not_intro hu) (not_not_intro hin), fun hno => absurd hu hno⟩
    · have hu := h.deliver (Bool.eq_false_iff.mpr hin) hstep
      exact ⟨iff_of_true hu.not_handlerWaits hin, fun _ => hu⟩

/-- **The handler never waits** for the thread it interrupted exactly if no
signal is delivered between a lock and its unlock. -/
theorem handler_waits_iff (P : Platform) (running : ℤ) (installed : ℤ → Bool)
    (moves : List Move) :
    StatesMeet (Thread.step P) (fun _ t => ¬ t.HandlerWaits)
        (.start running installed) moves ↔
      StepsMeet (Thread.step P) (fun _ t m => ¬ t.Interrupts m)
        (.start running installed) moves := by
  apply statesMeet_iff_stepsMeet Thread.Inv
  · exact inv_start running installed
  · exact (inv_start running installed).not_handlerWaits
  · intro _ t m u h _ hstep
    exact (step_handlerWaits_iff h hstep).1
  · intro _ t m u h hgood hstep
    exact (step_handlerWaits_iff h hstep).2 hgood

/-- A SIGINT right after `stop_program` has locked the mutex. -/
theorem handler_waits_in_stop :
    ¬ StatesMeet (Thread.step linux) (fun _ t => ¬ t.HandlerWaits)
      (.start 1 fun _ => true) [.call .stop, .advance, .deliver .sigint] := by
  intro h
  exact h _ _ List.prefix_rfl (run_of_exec rfl) ⟨rfl, .sigint, 0, _, _, rfl⟩

/-! ### Runs without interruptions -/

/-- An activation that is left alone does its steps one after the other. -/
theorem run_advance (P : Platform) (h : Option StopSignal) (below : List Activation)
    {todo : List Atomic} {g g' : Globals} {r r' : ℤ}
    (hexec : exec Atomic.step (g, r) todo = .next (g', r')) :
    Run (Thread.step P) ⟨g, ⟨h, r, todo⟩ :: below⟩ (List.replicate todo.length .advance)
      ⟨g', ⟨h, r', []⟩ :: below⟩ := by
  induction todo generalizing g r with
  | nil =>
    obtain ⟨rfl, rfl⟩ := Prod.mk.inj (Outcome.next.inj hexec)
    exact .nil _
  | cons a todo ih =>
    rw [exec] at hexec
    rcases ha : Atomic.step (g, r) a with _ | _ | ⟨g₁, r₁⟩
    · rw [ha] at hexec
      exact absurd hexec (by simp)
    · rw [ha] at hexec
      exact absurd hexec (by simp)
    · rw [ha] at hexec
      refine .cons ?_ (ih hexec)
      simp only [Thread.step, ha]

theorem run_return (P : Platform) (g : Globals) (h : Option StopSignal) (r : ℤ) :
    Run (Thread.step P) ⟨g, [⟨h, r, []⟩]⟩ [.advance] ⟨g, []⟩ :=
  .cons rfl (.nil _)

/-- A whole event of `SigHandlers` is a run of single steps. -/
theorem exists_run_of_step {g g' : Globals} {e : Event} (h : SigHandlerLib.step P g e = .next g') :
    ∃ moves, Run (Thread.step P) ⟨g, []⟩ moves ⟨g', []⟩ := by
  cases e with
  | call c =>
    obtain ⟨r, hcall⟩ := step_call_eq_next.mp h
    rcases henter : c.enter P g with ⟨g₀, r₀, todo⟩
    have hexec : exec Atomic.step (g₀, r₀) todo = .next (g', r) := by
      rw [SigHandlerLib.call, henter] at hcall
      exact hcall
    have hcalled : Thread.step P ⟨g, []⟩ (.call c) = .next ⟨g₀, [⟨none, r₀, todo⟩]⟩ := by
      simp only [Thread.step, henter]
    exact ⟨_, .cons hcalled ((run_advance P none [] hexec).append (run_return P g' none r))⟩
  | deliver s =>
    obtain ⟨hinstalled, r, hexec⟩ := step_deliver_eq_next.mp h
    have hdelivered : Thread.step P ⟨g, []⟩ (.deliver s)
        = .next ⟨g, [⟨some s, 0, signalHandler P s.number⟩]⟩ := by
      simp [Thread.step, hinstalled]
    exact ⟨_, .cons hdelivered
      ((run_advance P (some s) [] hexec).append (run_return P g' (some s) r))⟩

/-- **Calls with signals between them only** are runs of the single steps. -/
theorem uninterrupted_run {g g' : Globals} {events : List Event}
    (h : Run (SigHandlerLib.step P) g events g') :
    ∃ moves, Run (Thread.step P) ⟨g, []⟩ moves ⟨g', []⟩ := by
  induction h with
  | nil g => exact ⟨[], .nil _⟩
  | cons hstep _ ih =>
    obtain ⟨first, hfirst⟩ := exists_run_of_step hstep
    obtain ⟨rest, hrest⟩ := ih
    exact ⟨first ++ rest, hfirst.append hrest⟩

end SigHandlerLib
