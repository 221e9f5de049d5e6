/-
The life of the workers, from `pthread_create` to `pthread_join`.

* `Life` — in every reachable state: which workers exist, when `b_shutdown` is
  set, and which workers have returned;
* `freedAfterExit_iff` — the pool is freed after its last worker returned
  exactly when the number of workers fits `num_workers`.

`tpool_create` starts as many workers as its `int` argument says;
`tpool_shutdown` joins as many as the `uint8_t` field says.
-/
import UnixPrograms.ThreadPool

namespace ThreadPoolLib

open Memory Interleaving

variable {n : ℕ} {φ α : Type} {s t : Tpool n φ α}

/-- Where the workers are in every reachable state. -/
structure Life (s : Tpool n φ α) : Prop where
  width : s.numWorkers = n % 2 ^ 8
  unborn : ∀ k, s.caller = .creating k → ∀ j : Fin n, k ≤ j → s.worker j = .absent
  flag : s.bShutdown = true ↔ (∃ k, s.caller = .joining k) ∨ s.caller = .freed
  joined : ∀ k, s.caller = .joining k → ∀ j : Fin n, (j : ℕ) < k → s.worker j = .exited
  gone : s.caller = .freed → ∀ j : Fin n, (j : ℕ) < s.numWorkers → s.worker j = .exited

theorem life_poolStart : Life (poolStart n : Tpool n φ α) where
  width := rfl
  unborn _ _ _ _ := rfl
  flag := by simp [poolStart]
  joined _ hk := absurd hk (by simp [poolStart])
  gone hk := absurd hk (by simp [poolStart])

/-- Moves that do not concern the caller, and leave alone the workers that do
not exist and those that have returned. -/
theorem Life.of_settled (h : Life s) (hwidth : t.numWorkers = s.numWorkers)
    (hcaller : t.caller = s.caller) (hdown : t.bShutdown = s.bShutdown)
    (hset : ∀ j, s.worker j = .absent ∨ s.worker j = .exited → t.worker j = s.worker j) :
    Life t where
  width := hwidth.trans h.width
  unborn k hk j hj := by
    have habsent := h.unborn k (hcaller ▸ hk) j hj
    rw [hset j (Or.inl habsent), habsent]
  flag := by
    rw [hdown, hcaller]
    exact h.flag
  joined k hk j hj := by
    have hexited := h.joined k (hcaller ▸ hk) j hj
    rw [hset j (Or.inr hexited), hexited]
  gone hk j hj := by
    have hexited := h.gone (hcaller ▸ hk) j (hwidth ▸ hj)
    rw [hset j (Or.inr hexited), hexited]

/-- A move of a worker that runs does not concern the others. -/
theorem settled_update {worker : Fin n → WorkerPc} {i : Fin n} {pc : WorkerPc}
    (hi : worker i ≠ .absent ∧ worker i ≠ .exited) :
    ∀ j, worker j = .absent ∨ worker j = .exited → Function.update worker i pc j = worker j := by
  intro j hj
  refine Function.update_of_ne ?_ _ _
  rintro rfl
  exact hj.elim hi.1 hi.2

theorem settled_wake {worker : Fin n → WorkerPc} {woken : Finset (Fin n)} :
    ∀ j, worker j = .absent ∨ worker j = .exited → wake worker woken j = worker j := by
  intro j hj
  rw [wake]
  rw [if_neg]
  rintro ⟨_, hblocked⟩
  rw [hblocked] at hj
  simp at hj

/-- **The step lemma.** -/
theorem Life.step (h : Life s) {a : PoolAction n φ α} (hmove : PoolMove s a t) : Life t := by
  cases hmove with
  | @create k hcaller hk =>
    have hflag : s.bShutdown ≠ true := by
      rw [Ne, h.flag, hcaller]
      simp
    -- worker `k` is born; those from `k + 1` on are still absent
    refine ⟨h.width, ?_, ?_, ?_, ?_⟩
    · intro l hl j hj
      have hlk : l = k + 1 := by
        by_cases hlast : k + 1 < n
        · rw [if_pos hlast] at hl
          exact (CallerPc.creating.inj hl).symm
        · rw [if_neg hlast] at hl
          exact absurd hl (by simp)
      have hne : j ≠ ⟨k, hk⟩ := by
        rintro rfl
        simp only [hlk] at hj
        omega
      show Function.update s.worker ⟨k, hk⟩ .ready j = .absent
      rw [Function.update_of_ne hne]
      exact h.unborn k hcaller j (by omega)
    · show s.bShutdown = true ↔ _
      simp only [hflag]
      split <;> simp
    · intro l hl
      exact absurd hl (by split <;> simp)
    · intro hl
      exact absurd hl (by split <;> simp)
  | enqueue husable hsignals hlink => exact h.of_settled rfl rfl rfl settled_wake
  | wait hi | exit hi | take hi | call hi | free hi | wakeUp hi =>
    exact h.of_settled rfl rfl rfl (settled_update (by rw [hi]; simp))
  | shutdown hcaller =>
    refine ⟨h.width, fun l hl => absurd hl (by simp), ?_, ?_, fun hl => absurd hl (by simp)⟩
    · simp
    · intro l hl j hj
      obtain rfl := CallerPc.joining.inj hl
      exact absurd hj (Nat.not_lt_zero _)
  | @join k hcaller hk hexited =>
    have hflag : s.bShutdown = true := h.flag.mpr (Or.inl ⟨k, hcaller⟩)
    refine ⟨h.width, fun l hl => absurd hl (by simp), ?_, ?_, fun hl => absurd hl (by simp)⟩
    · simp [hflag]
    · intro l hl j hj
      obtain rfl := CallerPc.joining.inj hl
      obtain hlt | heq := Nat.lt_succ_iff_lt_or_eq.mp hj
      · exact h.joined k hcaller j hlt
      · obtain rfl : j = ⟨k, hk.2⟩ := Fin.ext heq
        exact hexited
  | @freePool k heap hcaller hk hfree =>
    have hflag : s.bShutdown = true := h.flag.mpr (Or.inl ⟨k, hcaller⟩)
    refine ⟨h.width, fun l hl => absurd hl (by simp), ?_, fun l hl => absurd hl (by simp), ?_⟩
    · simp [hflag]
    · intro _ j hj
      exact h.joined k hcaller j (Nat.lt_of_lt_of_le hj (Nat.le_of_not_lt hk))

theorem life_of_reachable (h : Reachable poolStep (poolStart n) s) : Life s :=
  h.invariant Life life_poolStart fun _ hs hstep => hs.step (poolStep_move hstep)

/-! ### The width of `num_workers` -/

/-- When `tpool_shutdown` has freed the pool, every worker that `tpool_create`
started has returned from `worker_thread`, and none locks the freed pool. -/
def FreedAfterExit (s₀ : Tpool n φ α) : Prop :=
  ∀ s, Reachable poolStep s₀ s → s.caller = .freed →
    (∀ i, s.worker i = .exited) ∧ ∀ i, poolStep s (.lock i) ≠ .fault

/-- The creation loop, run while no worker takes a step. -/
theorem create_run (hn : 0 < n) (k : ℕ) (hk : k ≤ n) :
    ∃ s : Tpool n φ α, Reachable poolStep (poolStart n) s ∧
      s.caller = (if k < n then .creating k else .running) ∧
      s.pTaskQueue = none ∧ ∀ j : Fin n, (j : ℕ) < k → s.worker j = .ready := by
  induction k with
  | zero =>
    exact ⟨poolStart n, .refl _, (if_pos hn).symm, rfl, fun j hj => absurd hj (Nat.not_lt_zero _)⟩
  | succ k ih =>
    obtain ⟨s, hreach, hcaller, hqueue, hready⟩ := ih (by omega)
    rw [if_pos (by omega)] at hcaller
    have hstep : poolStep s .create = .next { s with
        worker := Function.update s.worker ⟨k, by omega⟩ .ready
        caller := if k + 1 < n then .creating (k + 1) else .running } := by
      simp only [poolStep, createWorker, hcaller]
      exact dif_pos (by omega)
    refine ⟨_, hreach.tail hstep, rfl, hqueue, ?_⟩
    intro j hj
    by_cases hjk : j = ⟨k, by omega⟩
    · rw [hjk]
      exact Function.update_self _ _ _
    · show Function.update s.worker _ _ j = _
      rw [Function.update_of_ne hjk]
      refine hready j ?_
      have hne : (j : ℕ) ≠ k := fun heq => hjk (Fin.ext heq)
      omega

/-- The join loop, each worker returning just before it is joined. -/
theorem join_run (hn : 0 < n) (k : ℕ) (hk : k ≤ n % 2 ^ 8) :
    ∃ s : Tpool n φ α, Reachable poolStep (poolStart n) s ∧ s.caller = .joining k ∧
      s.pTaskQueue = none ∧ ∀ j : Fin n, k ≤ j → s.worker j = .ready := by
  induction k with
  | zero =>
    obtain ⟨s, hreach, hcaller, hqueue, hready⟩ : ∃ s : Tpool n φ α, _ :=
      create_run hn n (le_refl n)
    rw [if_neg (lt_irrefl n)] at hcaller
    have hstep : poolStep s .shutdown = .next { s with
        bShutdown := true, worker := wake s.worker Finset.univ, caller := .joining 0 } :=
      if_pos hcaller
    refine ⟨_, hreach.tail hstep, rfl, hqueue, ?_⟩
    intro j _
    show wake s.worker Finset.univ j = .ready
    rw [wake, hready j j.isLt, if_neg (by simp)]
  | succ k ih =>
    obtain ⟨s, hreach, hcaller, hqueue, hready⟩ := ih (by omega)
    have hlife := life_of_reachable hreach
    have hkn : k < n := by
      have hle := Nat.mod_le n (2 ^ 8)
      omega
    have hdown : s.bShutdown = true := hlife.flag.mpr (Or.inl ⟨k, hcaller⟩)
    -- worker `k` sees the flag and returns, then it is joined
    have hlock : poolStep s (.lock ⟨k, hkn⟩) = .next { s with
        worker := Function.update s.worker ⟨k, hkn⟩ .exited } := by
      show workerLock s ⟨k, hkn⟩ = _
      rw [workerLock]
      rw [if_neg (not_not.mpr (hready ⟨k, hkn⟩ (le_refl k))), if_neg (by rw [hcaller]; simp),
        if_neg (by rw [hdown]; simp), if_pos hdown]
    have hjoin : poolStep { s with worker := Function.update s.worker ⟨k, hkn⟩ .exited } .join
        = .next { s with
            worker := Function.update s.worker ⟨k, hkn⟩ .exited, caller := .joining (k + 1) } := by
      simp only [poolStep, joinWorker, hcaller]
      rw [dif_pos ⟨by rw [hlife.width]; omega, hkn⟩, if_pos (Function.update_self _ _ _)]
    refine ⟨_, (hreach.tail hlock).tail hjoin, rfl, hqueue, ?_⟩
    intro j hj
    show Function.update s.worker _ _ j = _
    rw [Function.update_of_ne]
    · exact hready j (by omega)
    · rintro rfl
      exact absurd hj (Nat.not_succ_le_self k)

theorem freeTasks_none (fuel : ℕ) (heap : Heap (Node (Task φ α))) :
    freeTasks fuel heap none = some heap := by
  cases fuel <;> rfl

/-- More than 255 workers: the join loop stops early, and the pool is freed while
a worker that nobody joined is at the top of its loop. -/
theorem not_freedAfterExit (hn : 255 < n) : ¬FreedAfterExit (poolStart n : Tpool n φ α) := by
  intro hsafe
  have hlt := Nat.mod_lt n (Nat.two_pow_pos 8)
  -- all `num_workers` are joined, and worker `num_workers` exists
  obtain ⟨s, hreach, hcaller, hqueue, hready⟩ : ∃ s : Tpool n φ α, _ :=
    join_run (by omega) (n % 2 ^ 8) (le_refl _)
  have hstep : poolStep s .freePool = .next { s with caller := .freed } := by
    simp only [poolStep, freePool, hcaller, hqueue, freeTasks_none]
    exact if_neg (by rw [(life_of_reachable hreach).width]; exact lt_irrefl _)
  have hworker := (hsafe _ (hreach.tail hstep) rfl).1 ⟨n % 2 ^ 8, by omega⟩
  exact absurd ((hready _ (le_refl _)).symm.trans hworker) (by simp)

/-- At most 255 workers: the join loop reaches them all. -/
theorem exited_of_freed (hn : n ≤ 255) (h : Reachable poolStep (poolStart n) s)
    (hfreed : s.caller = .freed) (i : Fin n) : s.worker i = .exited := by
  have hlife := life_of_reachable h
  refine hlife.gone hfreed i ?_
  rw [hlife.width, Nat.mod_eq_of_lt (by omega)]
  exact i.isLt

/-- **The width of `num_workers` decides.**  In every interleaving the pool is
freed after all its workers have returned if and only if `tpool_create` was
called with at most 255. -/
theorem freedAfterExit_iff : FreedAfterExit (poolStart n : Tpool n φ α) ↔ n ≤ 255 := by
  constructor
  · intro hsafe
    by_contra hlarge
    exact not_freedAfterExit (by omega) hsafe
  · intro hn s hreach hfreed
    refine ⟨exited_of_freed hn hreach hfreed, ?_⟩
    intro i
    show workerLock s i ≠ .fault
    rw [workerLock]
    rw [exited_of_freed hn hreach hfreed i, if_pos (by simp)]
    simp

/-- 256 workers are stored as 0, and none of them is joined. -/
theorem workers_outlive_pool : ¬FreedAfterExit (poolStart 256 : Tpool 256 ℕ ℕ) :=
  not_freedAfterExit (by decide)

end ThreadPoolLib
