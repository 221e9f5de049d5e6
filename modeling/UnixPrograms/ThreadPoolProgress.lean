/-
The thread pool comes to an end of its work.

* `poolWork` — a potential: what the queued tasks, the workers and the caller
  still have to do; every move takes one from it, except that an enqueued task
  and a spurious wakeup add to it (`poolWork_step`);
* `shutdown_returns` — a run is as long as the tasks and the spurious wakeups in
  it allow, and from the locked section of `tpool_shutdown` until the pool is
  freed some thread can always go on;
* `idle_pool` — a pool whose workers cannot go on before the shutdown has called
  every task.

The call of a task is one move: the functions of the tasks return.
-/
import UnixPrograms.ThreadPoolShutdown
import UnixPrograms.ThreadPoolWakeup

namespace ThreadPoolLib

open Memory Interleaving

variable {n : ℕ} {φ α : Type} {s t : Tpool n φ α} {ns : List (ℕ × Task φ α)} {i : Fin n}

/-! ### Which workers there are -/

/-- Workers are absent only in the creation loop, and return only for `b_shutdown`. -/
structure Staffed (s : Tpool n φ α) : Prop where
  absent : ∀ j, s.worker j = .absent → ∃ k, s.caller = .creating k ∧ k ≤ j
  exited : ∀ j, s.worker j = .exited → s.bShutdown = true

theorem staffed_poolStart : Staffed (poolStart n : Tpool n φ α) where
  absent j _ := ⟨0, rfl, Nat.zero_le _⟩
  exited j hj := absurd hj (by simp [poolStart])

/-- A move that brings no worker into one of the two places. -/
theorem Staffed.of_settled (h : Staffed s) (hdown : s.bShutdown = true → t.bShutdown = true)
    (hcaller : ∀ k, s.caller = .creating k → t.caller = .creating k)
    (habsent : ∀ j, t.worker j = .absent → s.worker j = .absent)
    (hexited : ∀ j, t.worker j = .exited → s.worker j = .exited) : Staffed t where
  absent j hj := by
    obtain ⟨k, hk, hkj⟩ := h.absent j (habsent j hj)
    exact ⟨k, hcaller k hk, hkj⟩
  exited j hj := hdown (h.exited j (hexited j hj))

theorem eq_of_update {worker : Fin n → WorkerPc} {pc pc' : WorkerPc} (hpc : pc ≠ pc')
    {j : Fin n} (hj : Function.update worker i pc j = pc') : worker j = pc' := by
  by_cases hji : j = i
  · rw [hji, Function.update_self] at hj
    exact absurd hj hpc
  · rwa [Function.update_of_ne hji] at hj

theorem eq_of_wake {worker : Fin n → WorkerPc} {woken : Finset (Fin n)} {pc : WorkerPc}
    (hpc : WorkerPc.ready ≠ pc) {j : Fin n} (hj : wake worker woken j = pc) : worker j = pc := by
  rw [wake] at hj
  split at hj
  · exact absurd hj hpc
  · exact hj

theorem Staffed.step (h : Staffed s) {a : PoolAction n φ α} (hmove : PoolMove s a t) :
    Staffed t := by
  cases hmove with
  | @create k hcaller hk =>
    refine ⟨?_, fun j hj => h.exited j (eq_of_update (by simp) hj)⟩
    intro j hj
    -- worker `k` is there now, and those before it were there already
    have hne : j ≠ ⟨k, hk⟩ := by
      rintro rfl
      exact absurd ((Function.update_self _ _ _).symm.trans hj) (by simp)
    obtain ⟨l, hl, hlj⟩ := h.absent j (eq_of_update (by simp) hj)
    obtain rfl := CallerPc.creating.inj (hcaller.symm.trans hl)
    have hlt : k < j := lt_of_le_of_ne hlj fun heq => hne (Fin.ext heq.symm)
    have hjn := j.isLt
    exact ⟨k + 1, if_pos (by omega), hlt⟩
  | enqueue =>
    exact h.of_settled id (fun _ => id) (fun j => eq_of_wake (by simp))
      fun j => eq_of_wake (by simp)
  | wait | take | call | free | wakeUp =>
    exact h.of_settled id (fun _ => id) (fun j => eq_of_update (by simp))
      fun j => eq_of_update (by simp)
  | exit hi hcaller hdown =>
    exact ⟨fun j hj => h.absent j (eq_of_update (by simp) hj), fun j _ => hdown⟩
  | shutdown hcaller =>
    exact h.of_settled (fun _ => rfl) (fun k hk => absurd (hcaller.symm.trans hk) (by simp))
      (fun j => eq_of_wake (by simp)) fun j => eq_of_wake (by simp)
  | join hcaller | freePool hcaller =>
    exact h.of_settled id (fun k hk => absurd (hcaller.symm.trans hk) (by simp))
      (fun _ => id) fun _ => id

theorem staffed_of_reachable (h : Reachable poolStep (poolStart n) s) : Staffed s :=
  h.invariant Staffed staffed_poolStart fun _ hs hstep => hs.step (poolStep_move hstep)

/-! ### A worker that can go on -/

/-- The mutex is free between two actions, so a worker that wants it gets it. -/
theorem workerLock_ne_blocked (hi : s.worker i = .ready) : workerLock s i ≠ .blocked := by
  rw [workerLock]
  rw [if_neg (not_not.mpr hi)]
  split
  · simp
  split
  · simp
  split
  · simp
  split
  · simp
  · split <;> simp

theorem workerCall_ne_blocked {a : ℕ} (hi : s.worker i = .taken a) :
    workerCall s i ≠ .blocked := by
  simp only [workerCall, hi]
  split <;> simp

theorem workerFree_ne_blocked {a : ℕ} (hi : s.worker i = .called a) :
    workerFree s i ≠ .blocked := by
  simp only [workerFree, hi]
  split <;> simp

/-- Before the pool is freed, an action that is not blocked leads on. -/
theorem Books.moves (h : Books s ns) (hcaller : s.caller ≠ .freed) {a : PoolAction n φ α}
    (ha : poolStep s a ≠ .blocked) : ∃ t, poolStep s a = .next t := by
  cases hstep : poolStep s a with
  | blocked => exact absurd hstep ha
  | fault => exact absurd hstep (h.ne_fault hcaller a)
  | next t => exact ⟨t, rfl⟩

/-- The actions of worker `i` that need no signal. -/
def workerActions (i : Fin n) : List (PoolAction n φ α) := [.lock i, .call i, .free i]

/-- A worker that is there, has not returned and does not wait can go on. -/
theorem Books.worker_moves (h : Books s ns) (hcaller : s.caller ≠ .freed) (i : Fin n)
    (hi : s.worker i ≠ .absent ∧ s.worker i ≠ .blocked ∧ s.worker i ≠ .exited) :
    ∃ a ∈ (workerActions i : List (PoolAction n φ α)), ∃ t, poolStep s a = .next t := by
  cases hpc : s.worker i with
  | absent => exact absurd hpc hi.1
  | blocked => exact absurd hpc hi.2.1
  | exited => exact absurd hpc hi.2.2
  | ready =>
    exact ⟨.lock i, by simp [workerActions], h.moves hcaller (workerLock_ne_blocked hpc)⟩
  | taken a =>
    exact ⟨.call i, by simp [workerActions], h.moves hcaller (workerCall_ne_blocked hpc)⟩
  | called a =>
    exact ⟨.free i, by simp [workerActions], h.moves hcaller (workerFree_ne_blocked hpc)⟩

/-! ### The potential -/

/-- The moves a worker has before it returns or waits again. -/
def workLeft : WorkerPc → ℕ
  | .taken _ => 3
  | .called _ => 2
  | .ready => 1
  | .absent | .blocked | .exited => 0

/-- The moves of the caller that are left, with those of the workers that it
creates and wakes. -/
def callerLeft (n numWorkers : ℕ) : CallerPc → ℕ
  | .creating k => 2 * (n - k) + (n + numWorkers + 2)
  | .running => n + numWorkers + 2
  | .joining k => numWorkers - k + 1
  | .freed => 0

/-- The tasks in the queue, as the record has them. -/
def queued (s : Tpool n φ α) : ℕ :=
  (enqueuedTasks s.events).length - (takenTasks s.events).length

/-- What the pool has before it. -/
def poolWork (s : Tpool n φ α) : ℕ :=
  3 * queued s + total workLeft s.worker + callerLeft n s.numWorkers s.caller

/-- What an action adds to the potential, and one for itself. -/
def actionCost : PoolAction n φ α → ℕ
  | .enqueue _ _ => n + 4
  | .wakeUp _ => 2
  | _ => 0

theorem workLeft_wake (worker : Fin n → WorkerPc) (woken : Finset (Fin n)) :
    total workLeft (wake worker woken) ≤ total workLeft worker + n := by
  have hle : ∀ j ∈ Finset.univ, workLeft (wake worker woken j) ≤ workLeft (worker j) + 1 := by
    intro j _
    rw [wake]
    split
    · exact Nat.le_add_left _ _
    · exact Nat.le_succ _
  have hsum := Finset.sum_le_sum hle
  rwa [Finset.sum_add_distrib, Finset.sum_const, Finset.card_univ, Fintype.card_fin,
    smul_eq_mul, mul_one] at hsum

theorem poolWork_poolStart :
    poolWork (poolStart n : Tpool n φ α) = 3 * n + n % 2 ^ 8 + 2 := by
  have hworkers : total workLeft (poolStart n : Tpool n φ α).worker = 0 :=
    total_eq_zero.mpr fun _ => rfl
  rw [poolWork, hworkers]
  show 3 * 0 + 0 + (2 * (n - 0) + (n + n % 2 ^ 8 + 2)) = _
  omega

/-- A worker that has less before it than it had. -/
theorem poolWork_update {pc : WorkerPc} {c : ℕ}
    (hleft : workLeft pc + 1 ≤ workLeft (s.worker i) + c)
    (hworker : t.worker = Function.update s.worker i pc) (hwidth : t.numWorkers = s.numWorkers)
    (hcaller : t.caller = s.caller) (hqueued : queued t = queued s) :
    poolWork t + 1 ≤ poolWork s + c := by
  have hmoved := total_update workLeft s.worker i pc
  rw [poolWork, poolWork, hworker, hwidth, hcaller, hqueued]
  omega

theorem queued_append_of_none {es : List (Event n φ α)} {e : Event n φ α}
    (henq : e.enqueued = none) (htaken : e.taken = none) :
    (enqueuedTasks (es ++ [e])).length - (takenTasks (es ++ [e])).length =
      (enqueuedTasks es).length - (takenTasks es).length := by
  rw [enqueuedTasks_append_of_none henq, takenTasks_append_of_none htaken]

/-- **The step lemma.**  Every move takes one from the potential, but for what
its action pays. -/
theorem poolWork_step (hbooks : Books s ns) {a : PoolAction n φ α} (hmove : PoolMove s a t) :
    poolWork t + 1 ≤ poolWork s + actionCost a := by
  have hfifo := congrArg List.length hbooks.fifo
  rw [List.length_append] at hfifo
  cases hmove with
  | @create k hcaller hk =>
    have hmoved := total_update workLeft s.worker ⟨k, hk⟩ .ready
    show 3 * queued s + total workLeft (Function.update s.worker _ _) + callerLeft n _ _ + 1 ≤
      3 * queued s + total workLeft s.worker + callerLeft n s.numWorkers s.caller + 0
    rw [hcaller]
    simp only [workLeft] at hmoved
    split <;> simp only [callerLeft] <;> omega
  | @enqueue task woken queue heap husable hsignals hlink =>
    have hwoken := workLeft_wake s.worker woken
    have henq : (enqueuedTasks (s.events ++ [.enqueue (s.heap.fresh, task)])).length =
        (enqueuedTasks s.events).length + 1 := by
      rw [enqueuedTasks_append, List.length_append]
      rfl
    have htaken : takenTasks (s.events ++ [.enqueue (s.heap.fresh, task)]) =
        takenTasks s.events := takenTasks_append_of_none rfl
    simp only [poolWork, queued, actionCost, henq, htaken]
    omega
  | wait hi hcaller hqueue hrun => exact poolWork_update (by rw [hi]; exact le_refl _) rfl rfl rfl rfl
  | exit hi hcaller hdown => exact poolWork_update (by rw [hi]; exact le_refl _) rfl rfl rfl rfl
  | @take i a u pNext hi hcaller hqueue hrun hcell =>
    have hmoved := total_update workLeft s.worker i (.taken a)
    simp only [hi, workLeft] at hmoved
    -- the queue is one task shorter
    have hchain := hbooks.chain hcaller
    rw [hqueue] at hchain
    obtain ⟨d, r, ms, rfl, _, _⟩ := hchain.of_some
    have htaken : (takenTasks (s.events ++ [.take i (a, u)])).length =
        (takenTasks s.events).length + 1 := by
      rw [takenTasks_append, List.length_append]
      rfl
    have henq : enqueuedTasks (s.events ++ [.take i (a, u)]) = enqueuedTasks s.events :=
      enqueuedTasks_append_of_none rfl
    rw [List.length_cons] at hfifo
    simp only [poolWork, queued, actionCost, henq, htaken]
    omega
  | call hi hcell =>
    exact poolWork_update (by rw [hi]; exact le_refl _) rfl rfl rfl
      (queued_append_of_none rfl rfl)
  | free hi hcell hfree =>
    exact poolWork_update (by rw [hi]; exact le_refl _) rfl rfl rfl
      (queued_append_of_none rfl rfl)
  | wakeUp hi => exact poolWork_update (by rw [hi]; exact le_refl _) rfl rfl rfl rfl
  | shutdown hcaller =>
    have hwoken := workLeft_wake s.worker Finset.univ
    simp only [poolWork, queued, actionCost, hcaller, callerLeft]
    omega
  | join hcaller hk hexited =>
    simp only [poolWork, queued, actionCost, hcaller, callerLeft]
    omega
  | freePool hcaller hk hfree =>
    simp only [poolWork, queued, actionCost, hcaller, callerLeft]
    omega

/-! ### The end of the work -/

/-- A new task. -/
def PoolAction.isEnqueue : PoolAction n φ α → Bool
  | .enqueue _ _ => true
  | _ => false

/-- A spurious wakeup. -/
def PoolAction.isWakeUp : PoolAction n φ α → Bool
  | .wakeUp _ => true
  | _ => false

theorem sum_actionCost (as : List (PoolAction n φ α)) :
    (as.map actionCost).sum =
      (n + 4) * as.countP PoolAction.isEnqueue + 2 * as.countP PoolAction.isWakeUp := by
  induction as with
  | nil => rfl
  | cons a as ih =>
    rw [List.map_cons, List.sum_cons, ih, List.countP_cons, List.countP_cons]
    cases a <;> simp [actionCost, PoolAction.isEnqueue, PoolAction.isWakeUp] <;> ring

/-- A run is as long as its tasks and its spurious wakeups allow. -/
theorem length_of_run {as : List (PoolAction n φ α)} (hrun : Run poolStep (poolStart n) as s) :
    as.length ≤ 3 * n + n % 2 ^ 8 + 2 + (n + 4) * as.countP PoolAction.isEnqueue +
      2 * as.countP PoolAction.isWakeUp := by
  have hpaid := hrun.length_add_le poolWork actionCost
    (fun s => Reachable poolStep (poolStart n) s) (fun s a t hreach hstep => ?_) (.refl _)
  · rw [poolWork_poolStart, sum_actionCost] at hpaid
    omega
  · obtain ⟨ns, hbooks⟩ := books_of_reachable hreach
    exact ⟨hreach.tail hstep, poolWork_step hbooks (poolStep_move hstep)⟩

/-- From the locked section of `tpool_shutdown` until the pool is freed, a worker
or the caller can go on. -/
theorem shutdown_moves (hreach : Reachable poolStep (poolStart n) s)
    (hdown : s.bShutdown = true) (hcaller : s.caller ≠ .freed) :
    ∃ a t, poolStep s a = .next t ∧ a.isEnqueue = false ∧ a.isWakeUp = false := by
  obtain ⟨ns, hbooks⟩ := books_of_reachable hreach
  have hlife := life_of_reachable hreach
  obtain ⟨k, hk⟩ := (hlife.flag.mp hdown).resolve_right hcaller
  by_cases hlast : k < s.numWorkers
  · have hkn : k < n := by
      have hle := Nat.mod_le n (2 ^ 8)
      have hwidth := hlife.width
      omega
    -- the caller waits for worker `k`, which has returned or can go on
    by_cases hexited : s.worker ⟨k, hkn⟩ = .exited
    · refine ⟨.join, { s with caller := .joining (k + 1) }, ?_, rfl, rfl⟩
      simp only [poolStep, joinWorker, hk]
      rw [dif_pos ⟨hlast, hkn⟩, if_pos hexited]
    · have habsent : s.worker ⟨k, hkn⟩ ≠ .absent := by
        intro habs
        obtain ⟨l, hl, _⟩ := (staffed_of_reachable hreach).absent _ habs
        exact absurd (hk.symm.trans hl) (by simp)
      have hblocked : s.worker ⟨k, hkn⟩ ≠ .blocked := by
        intro hwaits
        have hrun := (awake_of_reachable hreach ⟨_, hwaits⟩).1
        exact absurd (hdown.symm.trans hrun) (by simp)
      obtain ⟨a, ha, t, hstep⟩ := hbooks.worker_moves hcaller _ ⟨habsent, hblocked, hexited⟩
      refine ⟨a, t, hstep, ?_⟩
      simp only [workerActions, List.mem_cons, List.not_mem_nil, or_false] at ha
      rcases ha with rfl | rfl | rfl <;> exact ⟨rfl, rfl⟩
  · have hfree : poolStep s .freePool ≠ .blocked := by
      simp only [poolStep, ThreadPoolLib.freePool, hk]
      rw [if_neg hlast]
      split <;> simp
    obtain ⟨t, ht⟩ := hbooks.moves hcaller hfree
    exact ⟨.freePool, t, ht, rfl, rfl⟩

/-- **The pool comes to an end.**  In every interleaving a run has at most
`3 n + n % 2 ^ 8 + 2` moves, `n + 4` more for each task and two more for each
spurious wakeup; and once `tpool_shutdown` has set the flag, a thread can go on
until the pool is freed.  A call of a task is one move here: where the task
functions return, so does `tpool_shutdown`. -/
theorem shutdown_returns {as : List (PoolAction n φ α)}
    (hrun : Run poolStep (poolStart n) as s) :
    as.length ≤ 3 * n + n % 2 ^ 8 + 2 + (n + 4) * as.countP PoolAction.isEnqueue +
        2 * as.countP PoolAction.isWakeUp ∧
      (s.bShutdown = true → s.caller ≠ .freed →
        ∃ a t, poolStep s a = .next t ∧ a.isEnqueue = false ∧ a.isWakeUp = false) :=
  ⟨length_of_run hrun, shutdown_moves ⟨as, hrun⟩⟩

/-- One worker: the shutdown finds it at its task. -/
theorem shutdown_returns_one :
    ∃ s : Tpool 1 ℕ ℕ, s.worker 0 = .taken 0 ∧ s.bShutdown = true ∧
      ∃ a t, poolStep s a = .next t ∧ a.isEnqueue = false ∧ a.isWakeUp = false := by
  have hrun : Run poolStep (poolStart 1 : Tpool 1 ℕ ℕ)
    [.create, .enqueue ⟨5, 6⟩ ∅, .lock 0, .shutdown] _ := run_of_exec rfl
  exact ⟨_, rfl, rfl, (shutdown_returns hrun).2 rfl (by simp)⟩

/-- **An idle pool has done its work.**  Before the shutdown, no worker can go on
without a signal if and only if all of them wait; then the queue is empty, every
task enqueued has been called exactly once, and each worker has freed what it
called. -/
theorem idle_pool (hn : 0 < n) (hreach : Reachable poolStep (poolStart n) s)
    (hcaller : s.caller = .running) :
    ((∀ i, ∀ a ∈ (workerActions i : List (PoolAction n φ α)), ∀ t, poolStep s a ≠ .next t) ↔
        ∀ i, s.worker i = .blocked) ∧
      ((∀ i, s.worker i = .blocked) → s.pTaskQueue = none ∧
        (calledTasks s.events).Perm (enqueuedTasks s.events) ∧
        ∀ i, ∃ done : List (ℕ × Task φ α), workerEvents i s.events = done.flatMap (round i)) := by
  obtain ⟨ns, hbooks⟩ := books_of_reachable hreach
  have hstaff := staffed_of_reachable hreach
  have hlive : s.caller ≠ .freed := by simp [hcaller]
  refine ⟨⟨?_, ?_⟩, ?_⟩
  · intro hstuck i
    by_contra hi
    have habsent : s.worker i ≠ .absent := by
      intro habs
      obtain ⟨k, hk, _⟩ := hstaff.absent i habs
      exact absurd (hcaller.symm.trans hk) (by simp)
    have hexited : s.worker i ≠ .exited := by
      intro hex
      have hflag := (life_of_reachable hreach).flag.mp (hstaff.exited i hex)
      simp [hcaller] at hflag
    obtain ⟨a, ha, t, hstep⟩ := hbooks.worker_moves hlive i ⟨habsent, hi, hexited⟩
    exact hstuck i a ha t hstep
  · intro hall i a ha t hstep
    simp only [workerActions, List.mem_cons, List.not_mem_nil, or_false] at ha
    rcases ha with rfl | rfl | rfl
    · simp [poolStep, workerLock, hall i] at hstep
    · simp [poolStep, workerCall, hall i] at hstep
    · simp [poolStep, workerFree, hall i] at hstep
  · intro hall
    have howns : ∀ i, owns (s.worker i) = none := fun i => by
      rw [hall i]
      rfl
    -- nobody is awake, so nothing is left in the queue
    obtain ⟨_, hle⟩ := awake_of_reachable hreach ⟨⟨0, hn⟩, hall _⟩
    have hnone : readyWorkers s.worker = 0 := total_eq_zero.mpr fun i => by
      rw [hall i]
      rfl
    have hfifo := hbooks.fifo
    have hlen := congrArg List.length hfifo
    rw [List.length_append] at hlen
    obtain rfl := List.length_eq_zero_iff.mp (show ns.length = 0 by omega)
    rw [List.append_nil] at hfifo
    have hperm := calledTasks_perm_of_owns howns hbooks.rounds
    rw [hfifo] at hperm
    exact ⟨hbooks.chain hlive, hperm,
      fun i => (inRounds_of_owns_none (howns i)).mp (hbooks.rounds i)⟩

/-- Two workers share two tasks and wait again. -/
theorem idle_pool_two :
    ∃ s : Tpool 2 ℕ ℕ, (enqueuedTasks s.events).length = 2 ∧ s.pTaskQueue = none ∧
      (calledTasks s.events).Perm (enqueuedTasks s.events) := by
  have hrun : Run poolStep (poolStart 2 : Tpool 2 ℕ ℕ)
    [.create, .create, .enqueue ⟨5, 6⟩ ∅, .enqueue ⟨7, 8⟩ ∅, .lock 1, .lock 0, .call 0,
      .call 1, .free 1, .lock 1, .free 0, .lock 0] _ := run_of_exec rfl
  have hidle := (idle_pool (by decide) ⟨_, hrun⟩ rfl).2 (by decide)
  exact ⟨_, rfl, hidle.1, hidle.2.1⟩

end ThreadPoolLib
