/-
No wakeup of the thread pool is lost.

* `Awake` — when some worker waits, `b_shutdown` is not set and there are at
  least as many ready workers as tasks in the queue;
* `Awake.step` — one move keeps it; a signal wakes a worker for the task it
  announces, and a worker that takes a task is one of those that were counted;
* `tpool_no_lost_wakeup` — the statement for every reachable state.

The number of queued tasks is read off the record: tasks enqueued and not taken.
-/
import UnixPrograms.ThreadPoolQueue

namespace ThreadPoolLib

open Memory Interleaving

variable {n : ℕ} {φ α : Type} {s t : Tpool n φ α} {ns : List (ℕ × Task φ α)} {i : Fin n}

/-- Counts the workers that are awake and have no task. -/
def isReady (pc : WorkerPc) : ℕ := if pc = .ready then 1 else 0

/-- The number of awake workers that are not executing a task. -/
def readyWorkers (worker : Fin n → WorkerPc) : ℕ := total isReady worker

/-- Whoever waits, waits rightly. -/
def Awake (s : Tpool n φ α) : Prop :=
  (∃ i, s.worker i = .blocked) → s.bShutdown = false ∧
    (enqueuedTasks s.events).length ≤ (takenTasks s.events).length + readyWorkers s.worker

theorem awake_poolStart : Awake (poolStart n : Tpool n φ α) :=
  fun ⟨_, hi⟩ => absurd hi (by simp [poolStart])

/-- A worker that moves on without waiting leaves the waiting ones waiting. -/
theorem blocked_of_update {worker : Fin n → WorkerPc} {pc : WorkerPc} (hpc : pc ≠ .blocked)
    (h : ∃ j, Function.update worker i pc j = .blocked) : ∃ j, worker j = .blocked := by
  obtain ⟨j, hj⟩ := h
  by_cases hji : j = i
  · rw [hji, Function.update_self] at hj
    exact absurd hj hpc
  · rw [Function.update_of_ne hji] at hj
    exact ⟨j, hj⟩

theorem blocked_of_wake {worker : Fin n → WorkerPc} {woken : Finset (Fin n)}
    (h : ∃ j, wake worker woken j = .blocked) : ∃ j, worker j = .blocked := by
  obtain ⟨j, hj⟩ := h
  rw [wake] at hj
  split at hj
  · exact absurd hj (by simp)
  · exact ⟨j, hj⟩

/-- The broadcast leaves nobody waiting. -/
theorem wake_univ_ne_blocked (worker : Fin n → WorkerPc) (j : Fin n) :
    wake worker Finset.univ j ≠ .blocked := by
  rw [wake]
  split
  · simp
  · rename_i h
    exact fun hj => h ⟨Finset.mem_univ j, hj⟩

/-- A signal that finds a waiting worker makes one more worker ready. -/
theorem readyWorkers_wake {worker : Fin n → WorkerPc} {woken : Finset (Fin n)}
    (h : ∃ i ∈ woken, worker i = .blocked) :
    readyWorkers worker + 1 ≤ readyWorkers (wake worker woken) := by
  obtain ⟨i, hi, hblocked⟩ := h
  refine total_lt_total ?_ ⟨i, ?_⟩
  · intro j
    rw [wake]
    split
    · rename_i hj
      rw [hj.2]
      exact Nat.zero_le _
    · exact le_refl _
  · rw [wake, if_pos ⟨hi, hblocked⟩, hblocked]
    exact Nat.zero_lt_one

theorem readyWorkers_update {worker : Fin n → WorkerPc} {pc : WorkerPc}
    (h : isReady (worker i) ≤ isReady pc) :
    readyWorkers worker ≤ readyWorkers (Function.update worker i pc) := by
  have hcount := total_update isReady worker i pc
  unfold readyWorkers
  omega

/-- A worker moves on without waiting, and the queue stays as it is. -/
theorem Awake.of_update (h : Awake s) {pc : WorkerPc} (hpc : pc ≠ .blocked)
    (hready : isReady (s.worker i) ≤ isReady pc)
    (hworker : t.worker = Function.update s.worker i pc) (hdown : t.bShutdown = s.bShutdown)
    (henq : enqueuedTasks t.events = enqueuedTasks s.events)
    (htaken : takenTasks t.events = takenTasks s.events) : Awake t := by
  intro hblocked
  rw [hworker] at hblocked
  obtain ⟨hrun, hle⟩ := h (blocked_of_update hpc hblocked)
  have hmore := readyWorkers_update hready
  rw [hdown, henq, htaken, hworker]
  exact ⟨hrun, by omega⟩

/-- **The step lemma.** -/
theorem Awake.step (h : Awake s) (hbooks : Books s ns) {a : PoolAction n φ α}
    (hmove : PoolMove s a t) : Awake t := by
  cases hmove with
  | create hcaller hk =>
    refine h.of_update (by simp : WorkerPc.ready ≠ .blocked) ?_ rfl rfl rfl rfl
    unfold isReady
    split <;> simp
  | enqueue husable hsignals hlink =>
    intro hblocked
    -- somebody waits even after the signal, so the signal found a waiter
    have hwaiting := blocked_of_wake hblocked
    obtain ⟨hrun, hle⟩ := h hwaiting
    have hmore := readyWorkers_wake (hsignals hwaiting)
    refine ⟨hrun, ?_⟩
    rw [enqueuedTasks_append, takenTasks_append, List.length_append, List.length_append]
    show _ + 1 ≤ _ + 0 + readyWorkers (wake _ _)
    omega
  | wait hi hcaller hqueue hrun =>
    intro _
    -- the worker that begins to wait saw an empty queue
    have hchain := hbooks.chain hcaller
    rw [hqueue] at hchain
    have hfifo := hbooks.fifo
    rw [hchain.eq_nil, List.append_nil] at hfifo
    refine ⟨hrun, ?_⟩
    show (enqueuedTasks s.events).length ≤ (takenTasks s.events).length + _
    rw [hfifo]
    exact Nat.le_add_right _ _
  | exit hi hcaller hdown =>
    intro hblocked
    have hrun := (h (blocked_of_update (by simp) hblocked)).1
    exact absurd (hdown.symm.trans hrun) (by simp)
  | @take i a u pNext hi hcaller hqueue hrun hcell =>
    intro hblocked
    -- one task and one ready worker less
    obtain ⟨_, hle⟩ := h (blocked_of_update (by simp) hblocked)
    have hcount := total_update isReady s.worker i (.taken a)
    have hone : isReady (s.worker i) = 1 := by rw [hi]; rfl
    have hzero : isReady (.taken a) = 0 := rfl
    refine ⟨hrun, ?_⟩
    rw [enqueuedTasks_append, takenTasks_append, List.length_append, List.length_append]
    show _ + 0 ≤ _ + 1 + total isReady (Function.update s.worker i (.taken a))
    rw [readyWorkers] at hle
    omega
  | call hi hcell =>
    refine h.of_update (by simp) (by rw [hi]; exact le_refl _) rfl rfl ?_ ?_
    · exact enqueuedTasks_append_of_none rfl
    · exact takenTasks_append_of_none rfl
  | free hi hcell hfree =>
    refine h.of_update (by simp) (by rw [hi]; exact Nat.zero_le _) rfl rfl ?_ ?_
    · exact enqueuedTasks_append_of_none rfl
    · exact takenTasks_append_of_none rfl
  | wakeUp hi => exact h.of_update (by simp) (by rw [hi]; exact Nat.zero_le _) rfl rfl rfl rfl
  | shutdown hcaller =>
    rintro ⟨j, hj⟩
    exact absurd hj (wake_univ_ne_blocked _ j)
  | join hcaller hk hexited => exact h
  | freePool hcaller hk hfree => exact h

theorem awake_of_reachable (h : Reachable poolStep (poolStart n) s) : Awake s := by
  refine h.invariant Awake awake_poolStart fun hreach hs hstep => ?_
  obtain ⟨ns, hbooks⟩ := books_of_reachable hreach
  exact hs.step hbooks (poolStep_move hstep)

/-- **No lost wakeup.**  In every reachable state in which a worker waits,
`b_shutdown` is not set and the queue holds at most as many tasks as there are
awake workers without a task; so all workers wait only on an empty queue. -/
theorem tpool_no_lost_wakeup (h : Reachable poolStep (poolStart n) s) :
    ((∃ i, s.worker i = .blocked) → s.bShutdown = false ∧
      ∃ ns, Chain s.heap s.pTaskQueue ns ∧ ns.length ≤ readyWorkers s.worker) ∧
    (0 < n → (∀ i, s.worker i = .blocked) → s.bShutdown = false ∧ s.pTaskQueue = none) := by
  have hwaits : (∃ i, s.worker i = .blocked) → s.bShutdown = false ∧
      ∃ ns, Chain s.heap s.pTaskQueue ns ∧ ns.length ≤ readyWorkers s.worker := by
    intro hblocked
    obtain ⟨hrun, hle⟩ := awake_of_reachable h hblocked
    obtain ⟨ns, hbooks⟩ := books_of_reachable h
    have hcaller : s.caller ≠ .freed := fun hfreed => by
      have hdown := (life_of_reachable h).flag.mpr (Or.inr hfreed)
      exact absurd (hdown.symm.trans hrun) (by simp)
    rw [← hbooks.fifo, List.length_append] at hle
    exact ⟨hrun, ns, hbooks.chain hcaller, by omega⟩
  refine ⟨hwaits, ?_⟩
  intro hn hall
  obtain ⟨hrun, ns, hchain, hle⟩ := hwaits ⟨⟨0, hn⟩, hall _⟩
  have hnone : readyWorkers s.worker = 0 := total_eq_zero.mpr fun i => by rw [hall i]; rfl
  rw [hnone] at hle
  obtain rfl := List.length_eq_zero_iff.mp (Nat.le_zero.mp hle)
  exact ⟨hrun, hchain⟩

/-- Two workers wait, and a task wakes one of them. -/
theorem tpool_no_lost_wakeup_signal :
    ∃ s : Tpool 2 ℕ ℕ, (s.worker 0 = .blocked ∧ s.pTaskQueue ≠ none) ∧
      ((∃ i, s.worker i = .blocked) → s.bShutdown = false ∧
        ∃ ns, Chain s.heap s.pTaskQueue ns ∧ ns.length ≤ readyWorkers s.worker) ∧
      (0 < 2 → (∀ i, s.worker i = .blocked) → s.bShutdown = false ∧ s.pTaskQueue = none) := by
  have hrun : Run poolStep (poolStart 2 : Tpool 2 ℕ ℕ)
    [.create, .create, .lock 0, .lock 1, .enqueue ⟨5, 6⟩ {1}] _ := run_of_exec rfl
  exact ⟨_, by decide, tpool_no_lost_wakeup ⟨_, hrun⟩⟩

end ThreadPoolLib
