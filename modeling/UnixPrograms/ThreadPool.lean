/-
The thread pool of `thread_pool_lib.c`, as a system of threads.

The pool has one caller, which runs `tpool_create` and `tpool_shutdown`, any
number of producers, which run `tpool_enqueue`, and `n` workers.  One action is
one section under `p_queue_mutex`, or what a thread does between two of them:

* `tpoolEnqueue` — the locked section of `tpool_enqueue`, with its signal;
* `workerLock` — a worker from the mutex to `pthread_cond_wait`, to its
  `return`, or to the unlock after it took a task;
* `workerCall`, `workerFree` — the call of the task, and `free (p_task)`;
* `shutdownLocked`, `joinWorker`, `freePool` — the parts of `tpool_shutdown`.

A worker that wakes up takes the mutex again and tests the loop condition again,
so it is `ready` like a worker at the top of its loop.  `events` is a record for
the proofs; no action reads it.
-/
import UnixPrograms.Heap
import UnixPrograms.Interleaving

namespace ThreadPoolLib

open Memory Interleaving

/-- What a `task_t` carries besides `p_next`. -/
structure Task (φ α : Type) where
  pFunction : φ
  argument : α
  deriving DecidableEq

/-- Where a worker is: not created yet, about to lock the mutex, in
`pthread_cond_wait`, with a task it has taken, with a task it has called, or
returned from `worker_thread`. -/
inductive WorkerPc where
  | absent
  | ready
  | blocked
  | taken (task : ℕ)
  | called (task : ℕ)
  | exited
  deriving DecidableEq

/-- Where the caller is: in the loop of `tpool_create`, between the two calls,
in the join loop of `tpool_shutdown`, or after `free (*pp_tpool)`. -/
inductive CallerPc where
  | creating (i : ℕ)
  | running
  | joining (i : ℕ)
  | freed
  deriving DecidableEq

/-- A record of what happened to a task; `x` is its node and its contents. -/
inductive Event (n : ℕ) (φ α : Type) where
  | enqueue (x : ℕ × Task φ α)
  | take (worker : Fin n) (x : ℕ × Task φ α)
  | call (worker : Fin n) (x : ℕ × Task φ α)
  | free (worker : Fin n) (x : ℕ × Task φ α)
  deriving DecidableEq

/-- `struct tpool` with `n` workers, the heap with its `task_t` cells, and where
the threads are. -/
structure Tpool (n : ℕ) (φ α : Type) where
  pTaskQueue : Option ℕ
  numWorkers : ℕ
  bShutdown : Bool
  heap : Heap (Node (Task φ α))
  worker : Fin n → WorkerPc
  caller : CallerPc
  events : List (Event n φ α)

variable {n : ℕ} {φ α : Type}

/-- The pool before the creation loop.  The `int` argument is stored in the
`uint8_t num_workers`. -/
def poolStart (n : ℕ) : Tpool n φ α where
  pTaskQueue := none
  numWorkers := n % 2 ^ 8
  bShutdown := false
  heap := Heap.empty
  worker _ := .absent
  caller := .creating 0
  events := []

/-- `tpool_create` up to the loop: NULL for less than one worker and when one of
its two allocations fails. -/
def tpoolCreate (numWorkers : ℤ) (callocPool callocWorkers : Bool) :
    Option (Tpool numWorkers.toNat φ α) :=
  if 1 > numWorkers then none
  else if callocPool = false then none
  else if callocWorkers = false then none
  else some (poolStart numWorkers.toNat)

theorem tpoolCreate_of_pos (hn : 1 ≤ n) :
    (tpoolCreate (n : ℤ) true true : Option (Tpool n φ α)) = some (poolStart n) :=
  if_neg (by omega)

/-- One round of the creation loop. -/
def createWorker (s : Tpool n φ α) : Outcome (Tpool n φ α) :=
  match s.caller with
  | .creating i =>
    if h : i < n then
      .next { s with
        worker := Function.update s.worker ⟨i, h⟩ .ready
        -- the bound is the `int` argument, not the stored `num_workers`
        caller := if i + 1 < n then .creating (i + 1) else .running }
    else .blocked
  | _ => .blocked

/-- The waiting workers of `woken` leave `pthread_cond_wait`. -/
def wake (worker : Fin n → WorkerPc) (woken : Finset (Fin n)) : Fin n → WorkerPc :=
  fun i => if i ∈ woken ∧ worker i = .blocked then .ready else worker i

/-- The sets `pthread_cond_signal` may wake: at least one waiter if there is one. -/
def Signals (worker : Fin n → WorkerPc) (woken : Finset (Fin n)) : Prop :=
  (∃ i, worker i = .blocked) → ∃ i ∈ woken, worker i = .blocked

instance (worker : Fin n → WorkerPc) (woken : Finset (Fin n)) :
    Decidable (Signals worker woken) :=
  inferInstanceAs (Decidable (_ → _))

/-- The pool can be used: `tpool_create` has returned it and it is not freed. -/
def Usable : CallerPc → Prop
  | .running | .joining _ => True
  | .creating _ | .freed => False

instance : ∀ c, Decidable (Usable c)
  | .running | .joining _ => inferInstanceAs (Decidable True)
  | .creating _ | .freed => inferInstanceAs (Decidable False)

/-- `tpool_enqueue` of a task with a function and an argument.  The new node is
linked behind the last one, and the signal wakes `woken`. -/
def tpoolEnqueue (s : Tpool n φ α) (calloc : Bool) (task : Task φ α)
    (woken : Finset (Fin n)) : Outcome (Tpool n φ α) :=
  -- nothing is reported to the producer
  if calloc = false then .next s
  else if Usable s.caller ∧ Signals s.worker woken then
    match linkLast (s.heap.alloc ⟨task, none⟩) s.pTaskQueue s.heap.fresh with
    | none => .fault
    | some (pTaskQueue, heap) =>
      .next { s with
        pTaskQueue, heap
        worker := wake s.worker woken
        events := s.events ++ [.enqueue (s.heap.fresh, task)] }
  else .blocked

/-- The locked section of `worker_thread`. -/
def workerLock (s : Tpool n φ α) (i : Fin n) : Outcome (Tpool n φ α) :=
  if s.worker i ≠ .ready then .blocked
  -- the mutex is in the freed pool
  else if s.caller = .freed then .fault
  else if s.pTaskQueue = none ∧ s.bShutdown = false then
    .next { s with worker := Function.update s.worker i .blocked }
  -- the flag is tested before the queue, which may hold tasks
  else if s.bShutdown = true then
    .next { s with worker := Function.update s.worker i .exited }
  else
    match s.pTaskQueue with
    -- the `continue`, which the loop condition excludes
    | none => .next s
    | some task =>
      match s.heap.cell task with
      | none => .fault
      | some ⟨t, pNext⟩ =>
        .next { s with
          pTaskQueue := pNext
          worker := Function.update s.worker i (.taken task)
          events := s.events ++ [.take i (task, t)] }

/-- `p_task->p_function(p_task->argument)`. -/
def workerCall (s : Tpool n φ α) (i : Fin n) : Outcome (Tpool n φ α) :=
  match s.worker i with
  | .taken task =>
    match s.heap.cell task with
    | none => .fault
    | some ⟨t, _⟩ =>
      .next { s with
        worker := Function.update s.worker i (.called task)
        events := s.events ++ [.call i (task, t)] }
  | _ => .blocked

/-- `free (p_task)`, and back to the top of the loop. -/
def workerFree (s : Tpool n φ α) (i : Fin n) : Outcome (Tpool n φ α) :=
  match s.worker i with
  | .called task =>
    match s.heap.cell task, s.heap.free task with
    | some ⟨t, _⟩, some heap =>
      .next { s with
        heap
        worker := Function.update s.worker i .ready
        events := s.events ++ [.free i (task, t)] }
    | _, _ => .fault
  | _ => .blocked

/-- A waiting worker wakes up without a signal. -/
def wakeUp (s : Tpool n φ α) (i : Fin n) : Outcome (Tpool n φ α) :=
  if s.worker i = .blocked then
    .next { s with worker := Function.update s.worker i .ready }
  else .blocked

/-- The locked section of `tpool_shutdown`: the flag, and the broadcast. -/
def shutdownLocked (s : Tpool n φ α) : Outcome (Tpool n φ α) :=
  if s.caller = .running then
    .next { s with
      bShutdown := true
      worker := wake s.worker Finset.univ
      caller := .joining 0 }
  else .blocked

/-- One round of the join loop, up to the stored `num_workers`. -/
def joinWorker (s : Tpool n φ α) : Outcome (Tpool n φ α) :=
  match s.caller with
  | .joining i =>
    if h : i < s.numWorkers ∧ i < n then
      -- `pthread_join` returns when that worker has
      if s.worker ⟨i, h.2⟩ = .exited then .next { s with caller := .joining (i + 1) }
      else .blocked
    else .blocked
  | _ => .blocked

/-- The loop of `tpool_shutdown` that frees the tasks left in the queue. -/
def freeTasks : ℕ → Heap (Node (Task φ α)) → Option ℕ → Option (Heap (Node (Task φ α)))
  | _, heap, none => some heap
  | 0, _, some _ => none
  | fuel + 1, heap, some task =>
    match heap.cell task, heap.free task with
    | some ⟨_, pNext⟩, some heap => freeTasks fuel heap pNext
    | _, _ => none

/-- The end of `tpool_shutdown`: the worker array, the queue and the pool are
freed. -/
def freePool (s : Tpool n φ α) : Outcome (Tpool n φ α) :=
  match s.caller with
  | .joining i =>
    if i < s.numWorkers then .blocked
    -- workers from `num_workers` on are not waited for
    else
      match freeTasks s.heap.fresh s.heap s.pTaskQueue with
      | none => .fault
      | some heap => .next { s with heap, caller := .freed }
  | _ => .blocked

/-- The actions of all threads. -/
inductive PoolAction (n : ℕ) (φ α : Type) where
  | create
  | enqueue (task : Task φ α) (woken : Finset (Fin n))
  | lock (i : Fin n)
  | call (i : Fin n)
  | free (i : Fin n)
  | wakeUp (i : Fin n)
  | shutdown
  | join
  | freePool

/-- One action, its allocation succeeding. -/
def poolStep (s : Tpool n φ α) : PoolAction n φ α → Outcome (Tpool n φ α)
  | .create => createWorker s
  | .enqueue task woken => tpoolEnqueue s true task woken
  | .lock i => workerLock s i
  | .call i => workerCall s i
  | .free i => workerFree s i
  | .wakeUp i => wakeUp s i
  | .shutdown => shutdownLocked s
  | .join => joinWorker s
  | .freePool => freePool s

/-! ### The actions, one case for each thing they can do -/

/-- All that an action can do to a pool, with what it found there. -/
inductive PoolMove (s : Tpool n φ α) : PoolAction n φ α → Tpool n φ α → Prop
  | create {k : ℕ} (hcaller : s.caller = .creating k) (hk : k < n) :
      PoolMove s .create { s with
        worker := Function.update s.worker ⟨k, hk⟩ .ready
        caller := if k + 1 < n then .creating (k + 1) else .running }
  | enqueue {task : Task φ α} {woken : Finset (Fin n)} {queue : Option ℕ}
      {heap : Heap (Node (Task φ α))} (husable : Usable s.caller)
      (hsignals : Signals s.worker woken)
      (hlink : linkLast (s.heap.alloc ⟨task, none⟩) s.pTaskQueue s.heap.fresh
        = some (queue, heap)) :
      PoolMove s (.enqueue task woken) { s with
        pTaskQueue := queue
        heap
        worker := wake s.worker woken
        events := s.events ++ [.enqueue (s.heap.fresh, task)] }
  | wait {i : Fin n} (hi : s.worker i = .ready) (hcaller : s.caller ≠ .freed)
      (hqueue : s.pTaskQueue = none) (hrun : s.bShutdown = false) :
      PoolMove s (.lock i) { s with worker := Function.update s.worker i .blocked }
  | exit {i : Fin n} (hi : s.worker i = .ready) (hcaller : s.caller ≠ .freed)
      (hdown : s.bShutdown = true) :
      PoolMove s (.lock i) { s with worker := Function.update s.worker i .exited }
  | take {i : Fin n} {a : ℕ} {t : Task φ α} {pNext : Option ℕ} (hi : s.worker i = .ready)
      (hcaller : s.caller ≠ .freed) (hqueue : s.pTaskQueue = some a)
      (hrun : s.bShutdown = false) (hcell : s.heap.cell a = some ⟨t, pNext⟩) :
      PoolMove s (.lock i) { s with
        pTaskQueue := pNext
        worker := Function.update s.worker i (.taken a)
        events := s.events ++ [.take i (a, t)] }
  | call {i : Fin n} {a : ℕ} {t : Task φ α} {pNext : Option ℕ} (hi : s.worker i = .taken a)
      (hcell : s.heap.cell a = some ⟨t, pNext⟩) :
      PoolMove s (.call i) { s with
        worker := Function.update s.worker i (.called a)
        events := s.events ++ [.call i (a, t)] }
  | free {i : Fin n} {a : ℕ} {t : Task φ α} {pNext : Option ℕ} {heap : Heap (Node (Task φ α))}
      (hi : s.worker i = .called a) (hcell : s.heap.cell a = some ⟨t, pNext⟩)
      (hfree : s.heap.free a = some heap) :
      PoolMove s (.free i) { s with
        heap
        worker := Function.update s.worker i .ready
        events := s.events ++ [.free i (a, t)] }
  | wakeUp {i : Fin n} (hi : s.worker i = .blocked) :
      PoolMove s (.wakeUp i) { s with worker := Function.update s.worker i .ready }
  | shutdown (hcaller : s.caller = .running) :
      PoolMove s .shutdown { s with
        bShutdown := true
        worker := wake s.worker Finset.univ
        caller := .joining 0 }
  | join {k : ℕ} (hcaller : s.caller = .joining k) (hk : k < s.numWorkers ∧ k < n)
      (hexited : s.worker ⟨k, hk.2⟩ = .exited) :
      PoolMove s .join { s with caller := .joining (k + 1) }
  | freePool {k : ℕ} {heap : Heap (Node (Task φ α))} (hcaller : s.caller = .joining k)
      (hk : ¬k < s.numWorkers)
      (hfree : freeTasks s.heap.fresh s.heap s.pTaskQueue = some heap) :
      PoolMove s .freePool { s with heap, caller := .freed }

variable {s t : Tpool n φ α}

theorem workerLock_move {i : Fin n} (h : workerLock s i = .next t) : PoolMove s (.lock i) t := by
  rw [workerLock] at h
  split at h
  · exact absurd h (by simp)
  rename_i hready
  have hi := not_not.mp hready
  split at h
  · exact absurd h (by simp)
  rename_i hcaller
  split at h
  · rename_i hwait
    obtain rfl := Outcome.next.inj h
    exact .wait hi hcaller hwait.1 hwait.2
  rename_i hwait
  split at h
  · rename_i hdown
    obtain rfl := Outcome.next.inj h
    exact .exit hi hcaller hdown
  rename_i hdown
  have hrun : s.bShutdown = false := Bool.not_eq_true _ ▸ hdown
  split at h
  · -- the `continue`
    rename_i hqueue
    exact absurd ⟨hqueue, hrun⟩ hwait
  · rename_i a hqueue
    split at h
    · exact absurd h (by simp)
    · rename_i u pNext hcell
      obtain rfl := Outcome.next.inj h
      exact .take hi hcaller hqueue hrun hcell

/-- **Inversion.**  A step is one of the moves. -/
theorem poolStep_move {a : PoolAction n φ α} (h : poolStep s a = .next t) : PoolMove s a t := by
  cases a with
  | create =>
    simp only [poolStep, createWorker] at h
    split at h
    · rename_i k hcaller
      split at h
      · rename_i hk
        obtain rfl := Outcome.next.inj h
        exact .create hcaller hk
      · exact absurd h (by simp)
    · exact absurd h (by simp)
  | enqueue task woken =>
    simp only [poolStep, tpoolEnqueue] at h
    rw [if_neg (by simp)] at h
    split at h
    · rename_i hguard
      split at h
      · exact absurd h (by simp)
      · rename_i queue heap hlink
        obtain rfl := Outcome.next.inj h
        exact .enqueue hguard.1 hguard.2 hlink
    · exact absurd h (by simp)
  | lock i => exact workerLock_move h
  | call i =>
    simp only [poolStep, workerCall] at h
    split at h
    · rename_i a hi
      split at h
      · exact absurd h (by simp)
      · rename_i u pNext hcell
        obtain rfl := Outcome.next.inj h
        exact .call hi hcell
    · exact absurd h (by simp)
  | free i =>
    simp only [poolStep, workerFree] at h
    split at h
    · rename_i a hi
      split at h
      · rename_i u pNext heap hcell hfree
        obtain rfl := Outcome.next.inj h
        exact .free hi hcell hfree
      · exact absurd h (by simp)
    · exact absurd h (by simp)
  | wakeUp i =>
    simp only [poolStep, ThreadPoolLib.wakeUp] at h
    split at h
    · rename_i hi
      obtain rfl := Outcome.next.inj h
      exact .wakeUp hi
    · exact absurd h (by simp)
  | shutdown =>
    simp only [poolStep, shutdownLocked] at h
    split at h
    · rename_i hcaller
      obtain rfl := Outcome.next.inj h
      exact .shutdown hcaller
    · exact absurd h (by simp)
  | join =>
    simp only [poolStep, joinWorker] at h
    split at h
    · rename_i k hcaller
      split at h
      · rename_i hk
        split at h
        · rename_i hexited
          obtain rfl := Outcome.next.inj h
          exact .join hcaller hk hexited
        · exact absurd h (by simp)
      · exact absurd h (by simp)
    · exact absurd h (by simp)
  | freePool =>
    simp only [poolStep, ThreadPoolLib.freePool] at h
    split at h
    · rename_i k hcaller
      split at h
      · exact absurd h (by simp)
      · rename_i hk
        split at h
        · exact absurd h (by simp)
        · rename_i heap hfree
          obtain rfl := Outcome.next.inj h
          exact .freePool hcaller hk hfree
    · exact absurd h (by simp)

end ThreadPoolLib
