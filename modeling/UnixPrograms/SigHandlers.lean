/-
The running flag of `sig_handler_lib.c`.

`gb_is_running` is written inside `gb_is_running_mutex` by three functions: 1 by
`establish_sig_handler`, 0 by `stop_program` and by `signal_handler` on SIGINT
and SIGQUIT; `is_program_running` reads it there.  A function is what it does on
entry and the atomic steps that follow, `[lock, access, unlock]`:

* `Call.enter` — the entry of a call, `signalHandler` — the steps of the handler;
* `step` — a whole call, or a whole activation of the handler, with nothing
  between its atomic steps;
* `stop_request_kept_iff` — when the flag stays 0 after a stop request.

The single steps, and signals between them, are in `SigHandlersLock`.
-/
import UnixPrograms.Interleaving

namespace SigHandlerLib

open Interleaving

/-- SIGRTMAX, and the signals for which `sigaction` takes a handler. -/
structure Platform where
  sigrtmax : ℤ
  catchable : ℤ → Bool
  three_le_sigrtmax : 3 ≤ sigrtmax

/-- The signals that `signal_handler` takes as a request to stop. -/
inductive StopSignal where
  | sigint
  | sigquit
deriving DecidableEq

def StopSignal.number : StopSignal → ℤ
  | sigint => 2
  | sigquit => 3

/-- The pointer that `establish_sig_handler` is given. -/
inductive Handler where
  | null
  | signalHandler
deriving DecidableEq

/-- The flag, its mutex, and the signals that `signal_handler` is installed for. -/
structure Globals where
  gbIsRunning : ℤ
  locked : Bool
  installed : ℤ → Bool

/-- The steps between which a signal can arrive. -/
inductive Atomic where
  | lock
  | write (v : ℤ)
  | read
  | unlock
deriving DecidableEq

/-- One step, on the globals and the value that its function will return.
`pthread_mutex_lock` on a mutex that is held waits, whoever holds it. -/
def Atomic.step : Globals × ℤ → Atomic → Outcome (Globals × ℤ)
  | (g, r), .lock => if g.locked then .blocked else .next ({ g with locked := true }, r)
  | (g, r), .write v => .next ({ g with gbIsRunning := v }, r)
  | (g, _), .read => .next (g, if g.gbIsRunning ≠ 0 then 1 else 0)
  | (g, r), .unlock => .next ({ g with locked := false }, r)

/-- What the mutex is taken for. -/
def locking (access : Atomic) : List Atomic := [.lock, access, .unlock]

inductive Call where
  | establish (signum : ℤ) (func : Handler)
  | isRunning
  | stop
deriving DecidableEq

/-- The call gets as far as to set the flag. -/
def Establishes (P : Platform) (signum : ℤ) (func : Handler) : Prop :=
  1 ≤ signum ∧ signum ≤ P.sigrtmax ∧ func ≠ .null ∧ P.catchable signum

/-- The entry of `establish_sig_handler`: the checks and `sigaction`. -/
def establishSigHandler (P : Platform) (g : Globals) (signum : ℤ) (func : Handler) :
    Globals × ℤ × List Atomic :=
  if signum < 1 ∨ signum > P.sigrtmax ∨ func = .null then (g, 1, [])
  else if ¬ P.catchable signum then (g, 1, [])
  else ({ g with installed := Function.update g.installed signum true }, 0, locking (.write 1))

/-- The entry of a call: the globals, the value to return if nothing changes it,
and the steps that follow. -/
def Call.enter (P : Platform) (g : Globals) : Call → Globals × ℤ × List Atomic
  | establish signum func => establishSigHandler P g signum func
  | isRunning => (g, 0, locking .read)
  | stop => (g, 0, locking (.write 0))

/-- `signal_handler`. -/
def signalHandler (P : Platform) (sig : ℤ) : List Atomic :=
  if sig = 0 ∨ 1 > sig ∨ P.sigrtmax < sig then []
  else if StopSignal.sigint.number = sig ∨ StopSignal.sigquit.number = sig then
    locking (.write 0)
  else []

/-- A call from its entry to its return. -/
def call (P : Platform) (g : Globals) (c : Call) : Outcome (Globals × ℤ) :=
  let (g', r, todo) := c.enter P g
  exec Atomic.step (g', r) todo

/-! ### Calls and signals between them -/

inductive Event where
  | call (c : Call)
  | deliver (s : StopSignal)
deriving DecidableEq

/-- One call, or one signal handled between two calls.  A signal without the
handler would end the process. -/
def step (P : Platform) (g : Globals) : Event → Outcome Globals
  | .call c =>
    match call P g c with
    | .next (g', _) => .next g'
    | .blocked => .blocked
    | .fault => .fault
  | .deliver s =>
    if g.installed s.number then
      match exec Atomic.step (g, 0) (signalHandler P s.number) with
      | .next (g', _) => .next g'
      | .blocked => .blocked
      | .fault => .fault
    else .blocked

variable {P : Platform} {g : Globals} {signum : ℤ} {func : Handler}

theorem step_call_eq_next {c : Call} {g' : Globals} :
    step P g (.call c) = .next g' ↔ ∃ r, call P g c = .next (g', r) := by
  rw [step]
  rcases call P g c with _ | _ | ⟨g₁, r⟩ <;> simp

theorem step_deliver_eq_next {s : StopSignal} {g' : Globals} :
    step P g (.deliver s) = .next g' ↔ g.installed s.number = true ∧
      ∃ r, exec Atomic.step (g, 0) (signalHandler P s.number) = .next (g', r) := by
  rw [step]
  by_cases h : g.installed s.number = true
  · rw [if_pos h]
    rcases exec Atomic.step (g, 0) (signalHandler P s.number) with _ | _ | ⟨g₁, r⟩ <;> simp [h]
  · rw [if_neg h]
    simp [h]

theorem exec_locking_write (hg : g.locked = false) (r v : ℤ) :
    exec Atomic.step (g, r) (locking (.write v)) = .next ({ g with gbIsRunning := v }, r) := by
  cases g
  subst hg
  rfl

theorem exec_locking_read (hg : g.locked = false) (r : ℤ) :
    exec Atomic.step (g, r) (locking .read)
      = .next (g, if g.gbIsRunning ≠ 0 then 1 else 0) := by
  cases g
  subst hg
  rfl

/-- On the stop signals the handler always clears the flag. -/
theorem signalHandler_number (P : Platform) (s : StopSignal) :
    signalHandler P s.number = locking (.write 0) := by
  have h3 := P.three_le_sigrtmax
  have hvalid : ¬ (s.number = 0 ∨ 1 > s.number ∨ P.sigrtmax < s.number) := by
    cases s <;> simp only [StopSignal.number] <;> omega
  have hstop : StopSignal.sigint.number = s.number ∨ StopSignal.sigquit.number = s.number := by
    cases s
    · exact Or.inl rfl
    · exact Or.inr rfl
  rw [signalHandler, if_neg hvalid, if_pos hstop]

theorem establishSigHandler_of (h : Establishes P signum func) :
    establishSigHandler P g signum func =
      ({ g with installed := Function.update g.installed signum true }, 0,
        locking (.write 1)) := by
  obtain ⟨hpos, hmax, hfunc, hcatch⟩ := h
  rw [establishSigHandler, if_neg, if_neg (not_not.mpr hcatch)]
  rintro (hlt | hgt | hnull)
  · omega
  · omega
  · exact hfunc hnull

theorem establishSigHandler_of_not (h : ¬ Establishes P signum func) :
    establishSigHandler P g signum func = (g, 1, []) := by
  rw [establishSigHandler]
  split
  · rfl
  · rename_i hchecks
    push Not at hchecks
    rw [if_pos]
    intro hcatch
    exact h ⟨hchecks.1, hchecks.2.1, hchecks.2.2, hcatch⟩

theorem call_stop (hg : g.locked = false) :
    call P g .stop = .next ({ g with gbIsRunning := 0 }, 0) :=
  exec_locking_write hg 0 0

theorem call_isRunning (hg : g.locked = false) :
    call P g .isRunning = .next (g, if g.gbIsRunning ≠ 0 then 1 else 0) :=
  exec_locking_read hg 0

theorem call_establish (hg : g.locked = false) (h : Establishes P signum func) :
    call P g (.establish signum func) =
      .next ({ g with gbIsRunning := 1
                      installed := Function.update g.installed signum true }, 0) := by
  rw [call, Call.enter, establishSigHandler_of h]
  have hg' : Globals.locked { g with installed := Function.update g.installed signum true }
      = false := hg
  exact exec_locking_write hg' 0 1

theorem call_establish_fails (h : ¬ Establishes P signum func) :
    call P g (.establish signum func) = .next (g, 1) := by
  rw [call, Call.enter, establishSigHandler_of_not h]
  rfl

/-! ### Stop requests -/

/-- `stop_program`, or a SIGINT or SIGQUIT that is handled. -/
def Event.isStop : Event → Bool
  | .call .stop => true
  | .deliver _ => true
  | _ => false

/-- A call of `establish_sig_handler` that sets the flag. -/
def Event.SetsRunning (P : Platform) : Event → Prop
  | .call (.establish signum func) => Establishes P signum func
  | _ => False

/-- Some request to stop came before. -/
def StopRequested (past : List Event) : Prop := ∃ e ∈ past, e.isStop

/-- A call of `is_program_running` made now returns false. -/
def AnswersStopped (P : Platform) (g : Globals) : Prop :=
  ∀ g' r, call P g .isRunning = .next (g', r) → r = 0

theorem answersStopped_iff (hg : g.locked = false) :
    AnswersStopped P g ↔ g.gbIsRunning = 0 := by
  rw [AnswersStopped, call_isRunning hg]
  by_cases h : g.gbIsRunning = 0 <;> simp [h]

/-- **What one event does to the flag.**  The mutex is free again, and the flag
is 1, 0 or what it was. -/
theorem step_cases {e : Event} {g' : Globals} (hg : g.locked = false)
    (h : step P g e = .next g') :
    g'.locked = false ∧
      ((e.SetsRunning P ∧ e.isStop = false ∧ g'.gbIsRunning = 1) ∨
        (¬ e.SetsRunning P ∧ e.isStop = true ∧ g'.gbIsRunning = 0) ∨
        (¬ e.SetsRunning P ∧ e.isStop = false ∧ g'.gbIsRunning = g.gbIsRunning)) := by
  cases e with
  | call c =>
    obtain ⟨r, hcall⟩ := step_call_eq_next.mp h
    cases c with
    | establish signum func =>
      by_cases hest : Establishes P signum func
      · rw [call_establish hg hest] at hcall
        obtain ⟨rfl, -⟩ := Prod.mk.inj (Outcome.next.inj hcall)
        exact ⟨hg, Or.inl ⟨hest, rfl, rfl⟩⟩
      · rw [call_establish_fails hest] at hcall
        obtain ⟨rfl, -⟩ := Prod.mk.inj (Outcome.next.inj hcall)
        exact ⟨hg, Or.inr (Or.inr ⟨hest, rfl, rfl⟩)⟩
    | isRunning =>
      rw [call_isRunning hg] at hcall
      obtain ⟨rfl, -⟩ := Prod.mk.inj (Outcome.next.inj hcall)
      exact ⟨hg, Or.inr (Or.inr ⟨id, rfl, rfl⟩)⟩
    | stop =>
      rw [call_stop hg] at hcall
      obtain ⟨rfl, -⟩ := Prod.mk.inj (Outcome.next.inj hcall)
      exact ⟨hg, Or.inr (Or.inl ⟨id, rfl, rfl⟩)⟩
  | deliver s =>
    obtain ⟨-, r, hexec⟩ := step_deliver_eq_next.mp h
    rw [signalHandler_number, exec_locking_write hg] at hexec
    obtain ⟨rfl, -⟩ := Prod.mk.inj (Outcome.next.inj hexec)
    exact ⟨hg, Or.inr (Or.inl ⟨id, rfl, rfl⟩)⟩

/-- **A stop request is kept** exactly as long as no signal handler is
established after it.  On the left: in every state after a stop request a call of
`is_program_running` returns false. -/
theorem stop_request_kept_iff (P : Platform) (running : ℤ) (installed : ℤ → Bool)
    (events : List Event) :
    StatesMeet (step P) (fun past g => StopRequested past → AnswersStopped P g)
        ⟨running, false, installed⟩ events ↔
      StepsMeet (step P) (fun past _ e => StopRequested past → ¬ e.SetsRunning P)
        ⟨running, false, installed⟩ events := by
  apply statesMeet_iff_stepsMeet fun g => g.locked = false
  · rfl
  · rintro ⟨e, he, -⟩
    exact absurd he (by simp)
  · intro past g e g' hg hgood hstep
    have hconcat : StopRequested (past ++ [e]) ↔ StopRequested past ∨ e.isStop = true := by
      simp [StopRequested, or_and_right, exists_or]
    obtain ⟨hg', hcases⟩ := step_cases hg hstep
    rw [hconcat, answersStopped_iff hg']
    rw [answersStopped_iff hg] at hgood
    rcases hcases with ⟨hsets, hstop, hrun⟩ | ⟨hsets, hstop, hrun⟩ | ⟨hsets, hstop, hrun⟩
    · simp [hsets, hstop, hrun]
    · simp [hsets, hrun]
    · simpa [hsets, hstop, hrun] using hgood
  · intro past g e g' hg _ hstep
    exact (step_cases hg hstep).1

/-- Linux with glibc: SIGKILL and SIGSTOP are not caught, and two real-time
signals belong to the thread library. -/
def linux : Platform where
  sigrtmax := 64
  catchable signum := signum ∉ ([9, 19, 32, 33] : List ℤ)
  three_le_sigrtmax := by decide

/-- Ctrl-C between two set-up calls: `is_program_running` answers true again. -/
theorem stop_request_lost :
    ¬ StatesMeet (step linux) (fun past g => StopRequested past → AnswersStopped linux g)
      ⟨0, false, fun _ => false⟩
      [.call (.establish 2 .signalHandler), .deliver .sigint,
        .call (.establish 3 .signalHandler)] := by
  intro h
  have hrun := h _ _ List.prefix_rfl (run_of_exec rfl) ⟨.deliver .sigint, by simp, rfl⟩
  exact absurd (hrun _ _ rfl) (by decide)

end SigHandlerLib
