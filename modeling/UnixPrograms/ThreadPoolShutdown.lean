/-
What `tpool_shutdown` leaves undone.

* `ShutdownRun s₀ s₂` — a run of the pool from the locked section of
  `tpool_shutdown` in `s₀` to its return in `s₂`, with no task enqueued after
  that section;
* `shutdown_completes_iff` — every task enqueued has then been called exactly
  once if and only if the queue was empty in `s₀`.

A worker that finds `b_shutdown` set returns without looking at the queue, so
the tasks still in it are freed and never called.
-/
import UnixPrograms.ThreadPoolQueue

namespace ThreadPoolLib

open Memory Interleaving

variable {n : ℕ} {φ α : Type} {s t s₀ s₂ : Tpool n φ α} {i : Fin n}

/-! ### Calls and takes of workers that have returned -/

/-- The events of the workers, put together again. -/
theorem coe_filterMap_eq_sum {f : Event n φ α → Option (ℕ × Task φ α)}
    (hf : ∀ x, f (.enqueue x) = none) (es : List (Event n φ α)) :
    ((es.filterMap f : List (ℕ × Task φ α)) : Multiset (ℕ × Task φ α)) =
      ∑ i, ((workerEvents i es).filterMap f : Multiset (ℕ × Task φ α)) := by
  induction es with
  | nil => simp [workerEvents]
  | cons e es ih =>
    have hcons : ∀ j, ((workerEvents j (e :: es)).filterMap f : Multiset (ℕ × Task φ α)) =
        (if e.worker = some j then ([e].filterMap f : Multiset (ℕ × Task φ α)) else 0) +
          (workerEvents j es).filterMap f := by
      intro j
      unfold workerEvents
      split
      · rename_i hj
        rw [List.filter_cons_of_pos (by simpa using hj), Multiset.coe_add, ← List.filterMap_append]
        rfl
      · rename_i hj
        rw [List.filter_cons_of_neg (by simpa using hj), zero_add]
    -- the head is counted once, for the worker it belongs to
    rw [Finset.sum_congr rfl fun j _ => hcons j, Finset.sum_add_distrib, ← ih]
    have hhead : ((e :: es).filterMap f : Multiset (ℕ × Task φ α)) =
        ([e].filterMap f : Multiset (ℕ × Task φ α)) + es.filterMap f := by
      rw [Multiset.coe_add, ← List.filterMap_append]
      rfl
    rw [hhead]
    congr 1
    cases he : e.worker with
    | none =>
      have hnone : f e = none := by
        cases e with
        | enqueue x => exact hf x
        | take j x | call j x | free j x => exact absurd he (by simp [Event.worker])
      simp [hnone]
    | some j => simp [Finset.sum_ite_eq]

theorem takenTasks_rounds (done : List (ℕ × Task φ α)) :
    takenTasks (done.flatMap (round i)) = done := by
  induction done with
  | nil => rfl
  | cons x done ih =>
    rw [List.flatMap_cons, takenTasks, List.filterMap_append]
    exact congrArg (x :: ·) ih

theorem calledTasks_rounds (done : List (ℕ × Task φ α)) :
    calledTasks (done.flatMap (round i)) = done := by
  induction done with
  | nil => rfl
  | cons x done ih =>
    rw [List.flatMap_cons, calledTasks, List.filterMap_append]
    exact congrArg (x :: ·) ih

/-- Workers that are not at a task have called what they took. -/
theorem calledTasks_perm_of_owns (hidle : ∀ i, owns (s.worker i) = none)
    (hrounds : ∀ i, InRounds i (s.worker i) (workerEvents i s.events)) :
    (calledTasks s.events).Perm (takenTasks s.events) := by
  rw [← Multiset.coe_eq_coe]
  unfold calledTasks takenTasks
  rw [coe_filterMap_eq_sum (fun _ => rfl), coe_filterMap_eq_sum (fun _ => rfl)]
  refine Finset.sum_congr rfl fun i _ => ?_
  obtain ⟨done, hdone⟩ := (inRounds_of_owns_none (hidle i)).mp (hrounds i)
  rw [hdone]
  exact congrArg _ ((calledTasks_rounds done).trans (takenTasks_rounds done).symm)

/-- Workers that have returned have called what they took. -/
theorem calledTasks_perm (hexited : ∀ i, s.worker i = .exited)
    (hrounds : ∀ i, InRounds i (s.worker i) (workerEvents i s.events)) :
    (calledTasks s.events).Perm (takenTasks s.events) :=
  calledTasks_perm_of_owns (fun i => by rw [hexited i]; rfl) hrounds

/-! ### From the flag to the return -/

/-- A run of the pool in which `tpool_shutdown` locks the mutex in `s₀` and has
returned in `s₂`; all tasks were enqueued before. -/
def ShutdownRun (s₀ s₂ : Tpool n φ α) : Prop :=
  Reachable poolStep (poolStart n) s₀ ∧ s₂.caller = .freed ∧
    ∃ s₁ as, poolStep s₀ .shutdown = .next s₁ ∧ Run poolStep s₁ as s₂ ∧
      ∀ a ∈ as, ∀ task woken, a ≠ .enqueue task woken

/-- Once `b_shutdown` is set no worker takes a task. -/
theorem after_shutdown {s₁ : Tpool n φ α} {as : List (PoolAction n φ α)}
    (hdown : s₁.bShutdown = true) (hrun : Run poolStep s₁ as s₂)
    (has : ∀ a ∈ as, ∀ task woken, a ≠ .enqueue task woken) :
    takenTasks s₂.events = takenTasks s₁.events ∧
      enqueuedTasks s₂.events = enqueuedTasks s₁.events := by
  refine (hrun.invariant_on (fun s => s.bShutdown = true ∧
    takenTasks s.events = takenTasks s₁.events ∧
    enqueuedTasks s.events = enqueuedTasks s₁.events) (fun s a t ha hs hstep => ?_) has
    ⟨hdown, rfl, rfl⟩).2
  obtain ⟨hflag, htaken, henq⟩ := hs
  cases poolStep_move hstep with
  | create | exit | wakeUp | join | freePool => exact ⟨hflag, htaken, henq⟩
  | shutdown => exact ⟨rfl, htaken, henq⟩
  | enqueue => exact absurd rfl (ha _ _)
  | wait hi hcaller hqueue hrun => exact absurd (hflag.symm.trans hrun) (by simp)
  | take hi hcaller hqueue hrun => exact absurd (hflag.symm.trans hrun) (by simp)
  | call | free =>
    refine ⟨hflag, ?_, ?_⟩
    · exact (takenTasks_append_of_none rfl).trans htaken
    · exact (enqueuedTasks_append_of_none rfl).trans henq

/-- **What `tpool_shutdown` completes.**  With at most 255 workers, every task
enqueued has been called exactly once when `tpool_shutdown` returns if and only
if the queue was empty when it set `b_shutdown`. -/
theorem shutdown_completes_iff (hn : n ≤ 255) (h : ShutdownRun s₀ s₂) :
    (calledTasks s₂.events).Perm (enqueuedTasks s₂.events) ↔ s₀.pTaskQueue = none := by
  obtain ⟨hreach, hfreed, s₁, as, hdown, hrun, has⟩ := h
  obtain ⟨ns, hbooks⟩ := books_of_reachable hreach
  have hmove := poolStep_move hdown
  cases hmove with
  | shutdown hcaller =>
    have hchain := hbooks.chain (by rw [hcaller]; simp)
    have hreach₂ : Reachable poolStep (poolStart n) s₂ := (hreach.tail hdown).trans ⟨as, hrun⟩
    obtain ⟨ms, hbooks₂⟩ := books_of_reachable hreach₂
    have hperm := calledTasks_perm (exited_of_freed hn hreach₂ hfreed) hbooks₂.rounds
    obtain ⟨htaken, henq⟩ := after_shutdown rfl hrun has
    -- what was in the queue when the flag was set is what is missing at the end
    have hfifo : takenTasks s₂.events ++ ns = enqueuedTasks s₂.events := by
      rw [htaken, henq]
      exact hbooks.fifo
    constructor
    · intro hall
      have hlen := (hperm.symm.trans hall).length_eq
      rw [← hfifo, List.length_append] at hlen
      obtain rfl := List.length_eq_zero_iff.mp (show ns.length = 0 by omega)
      exact hchain
    · intro hnone
      rw [hnone] at hchain
      rw [hchain.eq_nil, List.append_nil] at hfifo
      rw [← hfifo]
      exact hperm

/-- One worker: a task it took and called before the shutdown. -/
theorem shutdown_completes_iff_taken :
    ∃ s₀ s₂ : Tpool 1 ℕ ℕ, calledTasks s₂.events = [(0, ⟨5, 6⟩)] ∧
      ((calledTasks s₂.events).Perm (enqueuedTasks s₂.events) ↔ s₀.pTaskQueue = none) := by
  have hbefore : Run poolStep (poolStart 1 : Tpool 1 ℕ ℕ)
    [.create, .enqueue ⟨5, 6⟩ ∅, .lock 0, .call 0] _ := run_of_exec rfl
  refine ⟨_, _, ?_, shutdown_completes_iff (by decide) ⟨⟨_, hbefore⟩, ?_, _,
    [.free 0, .lock 0, .join, .freePool], rfl, run_of_exec rfl, ?_⟩⟩
  · rfl
  · rfl
  · simp

/-- One worker: the caller locks the mutex for the shutdown before the worker
locks it for its task, and the task is freed without a call. -/
theorem shutdown_drops_task :
    ¬∀ s₀ s₂ : Tpool 1 ℕ ℕ, ShutdownRun s₀ s₂ →
      (calledTasks s₂.events).Perm (enqueuedTasks s₂.events) := by
  intro h
  have hbefore : Run poolStep (poolStart 1 : Tpool 1 ℕ ℕ) [.create, .enqueue ⟨5, 6⟩ ∅] _ :=
    run_of_exec rfl
  have hperm := h _ _ ⟨⟨_, hbefore⟩, ?_, _, [.lock 0, .join, .freePool], rfl, run_of_exec rfl, ?_⟩
  · exact absurd hperm.length_eq (by decide)
  · rfl
  · simp

end ThreadPoolLib
