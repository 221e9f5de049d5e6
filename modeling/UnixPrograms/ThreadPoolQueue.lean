/-
The task queue of the thread pool, over every interleaving.

* `Books` — what every reachable state keeps: the queue is a list of nodes, the
  tasks taken so far followed by those in the queue are the tasks enqueued, in
  order, and the events of each worker are rounds of take, call and free;
* `Books.step` — one move keeps it;
* `tpool_fifo` — the statement for every reachable state up to `freePool`, where
  no action faults either.
-/
import UnixPrograms.ThreadPoolLife

namespace ThreadPoolLib

open Memory Interleaving

variable {n : ℕ} {φ α : Type} {s t : Tpool n φ α} {ns : List (ℕ × Task φ α)} {i : Fin n}

/-! ### Reading the record -/

/-- The task an event enqueues. -/
def Event.enqueued : Event n φ α → Option (ℕ × Task φ α)
  | .enqueue x => some x
  | _ => none

/-- The task an event takes off the queue. -/
def Event.taken : Event n φ α → Option (ℕ × Task φ α)
  | .take _ x => some x
  | _ => none

/-- The task an event calls. -/
def Event.called : Event n φ α → Option (ℕ × Task φ α)
  | .call _ x => some x
  | _ => none

/-- The tasks in the order their enqueue sections ran. -/
def enqueuedTasks (es : List (Event n φ α)) : List (ℕ × Task φ α) := es.filterMap Event.enqueued

/-- The tasks in the order workers took them. -/
def takenTasks (es : List (Event n φ α)) : List (ℕ × Task φ α) := es.filterMap Event.taken

/-- The tasks in the order workers called them. -/
def calledTasks (es : List (Event n φ α)) : List (ℕ × Task φ α) := es.filterMap Event.called

theorem enqueuedTasks_append (es : List (Event n φ α)) (e : Event n φ α) :
    enqueuedTasks (es ++ [e]) = enqueuedTasks es ++ enqueuedTasks [e] := List.filterMap_append

theorem takenTasks_append (es : List (Event n φ α)) (e : Event n φ α) :
    takenTasks (es ++ [e]) = takenTasks es ++ takenTasks [e] := List.filterMap_append

theorem enqueuedTasks_append_of_none {es : List (Event n φ α)} {e : Event n φ α}
    (he : e.enqueued = none) : enqueuedTasks (es ++ [e]) = enqueuedTasks es := by
  rw [enqueuedTasks_append, enqueuedTasks, enqueuedTasks, List.filterMap_cons_none he,
    List.filterMap_nil, List.append_nil]

theorem takenTasks_append_of_none {es : List (Event n φ α)} {e : Event n φ α}
    (he : e.taken = none) : takenTasks (es ++ [e]) = takenTasks es := by
  rw [takenTasks_append, takenTasks, takenTasks, List.filterMap_cons_none he,
    List.filterMap_nil, List.append_nil]

/-- The worker an event belongs to. -/
def Event.worker : Event n φ α → Option (Fin n)
  | .enqueue _ => none
  | .take i _ | .call i _ | .free i _ => some i

/-- What one worker did. -/
def workerEvents (i : Fin n) (es : List (Event n φ α)) : List (Event n φ α) :=
  es.filter fun e => e.worker = some i

/-- A worker's whole treatment of a task. -/
def round (i : Fin n) (x : ℕ × Task φ α) : List (Event n φ α) :=
  [.take i x, .call i x, .free i x]

/-- The events of a worker are whole rounds, and the part of a round that its
place in the loop says. -/
def InRounds (i : Fin n) (pc : WorkerPc) (es : List (Event n φ α)) : Prop :=
  ∃ done : List (ℕ × Task φ α),
    match pc with
    | .taken a => ∃ u, es = done.flatMap (round i) ++ [.take i (a, u)]
    | .called a => ∃ u, es = done.flatMap (round i) ++ [.take i (a, u), .call i (a, u)]
    | _ => es = done.flatMap (round i)

/-- The node a worker has taken and not freed yet. -/
def owns : WorkerPc → Option ℕ
  | .taken a | .called a => some a
  | _ => none

/-- What every interleaving keeps. -/
structure Books (s : Tpool n φ α) (ns : List (ℕ × Task φ α)) : Prop where
  chain : s.caller ≠ .freed → Chain s.heap s.pTaskQueue ns
  fifo : takenTasks s.events ++ ns = enqueuedTasks s.events
  nodes : ((enqueuedTasks s.events).map Prod.fst).Nodup
  used : ∀ x ∈ enqueuedTasks s.events, x.1 < s.heap.fresh
  content : ∀ x ∈ enqueuedTasks s.events, ∀ u r, s.heap.cell x.1 = some ⟨u, r⟩ → u = x.2
  owned : Owned s.heap (owns ∘ s.worker) ns
  rounds : ∀ i, InRounds i (s.worker i) (workerEvents i s.events)

theorem books_poolStart : Books (poolStart n : Tpool n φ α) [] where
  chain _ := rfl
  fifo := rfl
  nodes := List.nodup_nil
  used _ hx := absurd hx List.not_mem_nil
  content _ hx := absurd hx List.not_mem_nil
  owned := Owned.nobody fun _ => rfl
  rounds _ := ⟨[], rfl⟩

/-- The events of a worker without a task are whole rounds. -/
theorem inRounds_of_owns_none {pc : WorkerPc} {es : List (Event n φ α)} (h : owns pc = none) :
    InRounds i pc es ↔ ∃ done : List (ℕ × Task φ α), es = done.flatMap (round i) := by
  cases pc with
  | taken a => exact absurd h (by simp [owns])
  | called a => exact absurd h (by simp [owns])
  | absent | ready | blocked | exited => exact Iff.rfl

/-- One more event of a worker. -/
theorem workerEvents_append_self {es : List (Event n φ α)} {e : Event n φ α}
    (h : e.worker = some i) : workerEvents i (es ++ [e]) = workerEvents i es ++ [e] := by
  unfold workerEvents
  rw [List.filter_append, List.filter_cons_of_pos (by simpa using h), List.filter_nil]

/-- One more event of anybody else. -/
theorem workerEvents_append_of_ne {es : List (Event n φ α)} {e : Event n φ α}
    (h : e.worker ≠ some i) : workerEvents i (es ++ [e]) = workerEvents i es := by
  unfold workerEvents
  rw [List.filter_append, List.filter_cons_of_neg (by simpa using h), List.filter_nil,
    List.append_nil]

/-- A worker that does something leaves the rounds of the others alone. -/
theorem rounds_update {es : List (Event n φ α)} {worker : Fin n → WorkerPc}
    {e : Event n φ α} {pc : WorkerPc}
    (h : ∀ j, InRounds j (worker j) (workerEvents j es)) (he : e.worker = some i)
    (hi : InRounds i pc (workerEvents i es ++ [e])) :
    ∀ j, InRounds j (Function.update worker i pc j) (workerEvents j (es ++ [e])) := by
  intro j
  by_cases hji : j = i
  · rw [hji, Function.update_self, workerEvents_append_self he]
    exact hi
  · rw [Function.update_of_ne hji, workerEvents_append_of_ne]
    · exact h j
    · rw [he]
      exact fun heq => hji (Option.some.inj heq).symm

/-! ### One move -/

/-- Workers without a task may have moved, no other worker has. -/
def SameTasks (worker worker' : Fin n → WorkerPc) : Prop :=
  ∀ j, worker' j = worker j ∨ (owns (worker j) = none ∧ owns (worker' j) = none)

theorem SameTasks.owns_comp {worker worker' : Fin n → WorkerPc} (h : SameTasks worker worker') :
    owns ∘ worker' = owns ∘ worker := by
  funext j
  obtain heq | ⟨hold, hnew⟩ := h j
  · exact congrArg owns heq
  · exact hnew.trans hold.symm

theorem SameTasks.rounds {worker worker' : Fin n → WorkerPc} (h : SameTasks worker worker')
    {es : Fin n → List (Event n φ α)} (hr : ∀ j, InRounds j (worker j) (es j)) :
    ∀ j, InRounds j (worker' j) (es j) := by
  intro j
  obtain heq | ⟨hold, hnew⟩ := h j
  · rw [heq]
    exact hr j
  · rw [inRounds_of_owns_none hnew]
    exact (inRounds_of_owns_none hold).mp (hr j)

theorem sameTasks_update {worker : Fin n → WorkerPc} {pc : WorkerPc}
    (hi : owns (worker i) = none) (hpc : owns pc = none) :
    SameTasks worker (Function.update worker i pc) := by
  intro j
  by_cases hji : j = i
  · rw [hji, Function.update_self]
    exact Or.inr ⟨hi, hpc⟩
  · exact Or.inl (Function.update_of_ne hji _ _)

theorem sameTasks_wake (worker : Fin n → WorkerPc) (woken : Finset (Fin n)) :
    SameTasks worker (wake worker woken) := by
  intro j
  rw [wake]
  split
  · rename_i h
    rw [h.2]
    exact Or.inr ⟨rfl, rfl⟩
  · exact Or.inl rfl

/-- Moves that leave the queue and the tasks alone. -/
theorem Books.of_sameTasks (h : Books s ns) {worker : Fin n → WorkerPc} {caller : CallerPc}
    {bShutdown : Bool} (hw : SameTasks s.worker worker)
    (hcaller : caller ≠ .freed → s.caller ≠ .freed) :
    Books { s with worker, caller, bShutdown } ns where
  chain hc := h.chain (hcaller hc)
  fifo := h.fifo
  nodes := h.nodes
  used := h.used
  content := h.content
  owned := by
    show Owned s.heap (owns ∘ worker) ns
    rw [hw.owns_comp]
    exact h.owned
  rounds := hw.rounds h.rounds

/-- The tasks in the queue have been enqueued. -/
theorem Books.mem_enqueued (h : Books s ns) {x : ℕ × Task φ α} (hx : x ∈ ns) :
    x ∈ enqueuedTasks s.events := by
  rw [← h.fifo]
  exact List.mem_append_right _ hx

/-- What a worker took has been enqueued. -/
theorem Books.mem_of_take (h : Books s ns) {x : ℕ × Task φ α}
    (hx : Event.take i x ∈ workerEvents i s.events) : x ∈ enqueuedTasks s.events := by
  rw [← h.fifo]
  exact List.mem_append_left _ (List.mem_filterMap.mpr ⟨_, (List.mem_filter.mp hx).1, rfl⟩)

/-- A node is enqueued with one task only. -/
theorem Books.task_eq (h : Books s ns) {x y : ℕ × Task φ α}
    (hx : x ∈ enqueuedTasks s.events) (hy : y ∈ enqueuedTasks s.events) (hxy : x.1 = y.1) :
    x = y :=
  List.inj_on_of_nodup_map h.nodes hx hy hxy

/-- `tpool_enqueue` links a new node behind the queue. -/
theorem Books.enqueue (h : Books s ns) {task : Task φ α} {worker : Fin n → WorkerPc}
    {queue : Option ℕ} {heap : Heap (Node (Task φ α))} (husable : s.caller ≠ .freed)
    (hw : SameTasks s.worker worker)
    (hlink : linkLast (s.heap.alloc ⟨task, none⟩) s.pTaskQueue s.heap.fresh
      = some (queue, heap)) :
    Books { s with
        pTaskQueue := queue, heap, worker
        events := s.events ++ [.enqueue (s.heap.fresh, task)] }
      (ns ++ [(s.heap.fresh, task)]) := by
  obtain ⟨q, h', hlink', hchain, hfresh, hcell⟩ := linkLast_spec (h.chain husable) task
  obtain ⟨rfl, rfl⟩ := Prod.mk.inj (Option.some.inj (hlink.symm.trans hlink'))
  have henq : enqueuedTasks (s.events ++ [.enqueue (s.heap.fresh, task)]) =
      enqueuedTasks s.events ++ [(s.heap.fresh, task)] := enqueuedTasks_append _ _
  have htaken : takenTasks (s.events ++ [.enqueue (s.heap.fresh, task)]) =
      takenTasks s.events := takenTasks_append_of_none rfl
  have hnew : ∀ x ∈ enqueuedTasks s.events, x.1 ≠ s.heap.fresh := fun x hx =>
    Nat.ne_of_lt (h.used x hx)
  refine ⟨fun _ => hchain, ?_, ?_, ?_, ?_, ?_, ?_⟩
  · show takenTasks _ ++ _ = enqueuedTasks _
    rw [htaken, henq, ← List.append_assoc, h.fifo]
  · show ((enqueuedTasks _).map Prod.fst).Nodup
    rw [henq, List.map_append]
    refine List.nodup_append.mpr ⟨h.nodes, List.nodup_singleton _, ?_⟩
    intro a ha b hb
    obtain ⟨x, hx, rfl⟩ := List.mem_map.mp ha
    rw [List.mem_singleton.mp hb]
    exact hnew x hx
  · show ∀ x ∈ enqueuedTasks _, x.1 < heap.fresh
    rw [henq, hfresh]
    intro x hx
    obtain hx | hx := List.mem_append.mp hx
    · exact Nat.lt_succ_of_lt (h.used x hx)
    · rw [List.mem_singleton.mp hx]
      exact Nat.lt_succ_self _
  · show ∀ x ∈ enqueuedTasks _, ∀ u r, heap.cell x.1 = some ⟨u, r⟩ → u = x.2
    rw [henq]
    intro x hx u r hxr
    -- a node of the queue carries what the new queue says, any other is unchanged
    by_cases hmem : x ∈ ns ++ [(s.heap.fresh, task)]
    · obtain ⟨r', hr'⟩ := Seg.cell_of_mem hchain hmem
      rw [hxr] at hr'
      exact (Node.mk.inj (Option.some.inj hr')).1
    · obtain hx | hx := List.mem_append.mp hx
      · rw [hcell x.1 (fun y hy heq => hmem ?_) (hnew x hx)] at hxr
        · exact h.content x hx u r hxr
        · rw [← h.task_eq (h.mem_enqueued hy) hx heq]
          exact List.mem_append_left _ hy
      · exact absurd (List.mem_append_right _ hx) hmem
  · show Owned heap (owns ∘ worker) _
    rw [hw.owns_comp]
    exact h.owned.append task hcell
  · refine hw.rounds ?_
    intro j
    show InRounds j (s.worker j) (workerEvents j (s.events ++ [_]))
    rw [workerEvents_append_of_ne (by simp [Event.worker])]
    exact h.rounds j

/-- A worker takes the first task of the queue. -/
theorem Books.take (h : Books s ns) {a : ℕ} {u : Task φ α} {pNext : Option ℕ}
    (hi : s.worker i = .ready) (hcaller : s.caller ≠ .freed) (hqueue : s.pTaskQueue = some a)
    (hcell : s.heap.cell a = some ⟨u, pNext⟩) :
    ∃ ms, Books { s with
      pTaskQueue := pNext
      worker := Function.update s.worker i (.taken a)
      events := s.events ++ [.take i (a, u)] } ms := by
  have hchain := h.chain hcaller
  rw [hqueue] at hchain
  obtain ⟨d, r, ms, rfl, hcell', hrest⟩ := Chain.of_some hchain
  obtain ⟨rfl, rfl⟩ := Node.mk.inj (Option.some.inj (hcell.symm.trans hcell'))
  have henq : enqueuedTasks (s.events ++ [.take i (a, u)]) = enqueuedTasks s.events :=
    enqueuedTasks_append_of_none rfl
  have htaken : takenTasks (s.events ++ [.take i (a, u)]) =
      takenTasks s.events ++ [(a, u)] := takenTasks_append _ _
  refine ⟨ms, fun _ => hrest, ?_, henq ▸ h.nodes, henq ▸ h.used, henq ▸ h.content, ?_, ?_⟩
  · show takenTasks _ ++ _ = enqueuedTasks _
    rw [htaken, henq, List.append_assoc, ← h.fifo]
    rfl
  · show Owned s.heap (owns ∘ Function.update s.worker i (.taken a)) ms
    rw [Function.comp_update]
    exact h.owned.take hchain i
  · refine rounds_update h.rounds rfl ?_
    obtain ⟨done, hdone⟩ := (inRounds_of_owns_none (by rw [hi]; rfl)).mp (h.rounds i)
    exact ⟨done, u, by rw [hdone]⟩

/-- A worker calls the task it took, with its own argument. -/
theorem Books.call (h : Books s ns) {a : ℕ} {u : Task φ α} {pNext : Option ℕ}
    (hi : s.worker i = .taken a) (hcell : s.heap.cell a = some ⟨u, pNext⟩) :
    Books { s with
      worker := Function.update s.worker i (.called a)
      events := s.events ++ [.call i (a, u)] } ns := by
  have henq : enqueuedTasks (s.events ++ [.call i (a, u)]) = enqueuedTasks s.events :=
    enqueuedTasks_append_of_none rfl
  have htaken : takenTasks (s.events ++ [.call i (a, u)]) = takenTasks s.events :=
    takenTasks_append_of_none rfl
  refine ⟨h.chain, ?_, henq ▸ h.nodes, henq ▸ h.used, henq ▸ h.content, ?_, ?_⟩
  · show takenTasks _ ++ _ = enqueuedTasks _
    rw [htaken, henq, h.fifo]
  · show Owned s.heap (owns ∘ Function.update s.worker i (.called a)) ns
    -- calling a task does not change who owns its node
    have hsame : owns (.called a) = (owns ∘ s.worker) i := by
      show _ = owns (s.worker i)
      rw [hi]
      rfl
    rw [Function.comp_update, hsame, Function.update_eq_self]
    exact h.owned
  · refine rounds_update h.rounds rfl ?_
    have hround := h.rounds i
    rw [hi] at hround
    obtain ⟨done, v, hdone⟩ := hround
    -- the task read from the node is the one the worker took
    have hmem : (a, v) ∈ enqueuedTasks s.events :=
      h.mem_of_take (by rw [hdone]; exact List.mem_append_right _ List.mem_cons_self)
    obtain rfl := h.content (a, v) hmem u pNext hcell
    exact ⟨done, u, by rw [hdone, List.append_assoc]; rfl⟩

/-- A worker frees the task it called. -/
theorem Books.free (h : Books s ns) {a : ℕ} {u : Task φ α} {pNext : Option ℕ}
    {heap : Heap (Node (Task φ α))} (hi : s.worker i = .called a)
    (hcell : s.heap.cell a = some ⟨u, pNext⟩) (hfree : s.heap.free a = some heap) :
    Books { s with
      heap
      worker := Function.update s.worker i .ready
      events := s.events ++ [.free i (a, u)] } ns := by
  obtain ⟨h', hfree', hfresh, hfreed⟩ := Heap.free_of_cell hcell
  obtain rfl := Option.some.inj (hfree.symm.trans hfree')
  have hown : (owns ∘ s.worker) i = some a := by
    show owns (s.worker i) = some a
    rw [hi]
    rfl
  have henq : enqueuedTasks (s.events ++ [.free i (a, u)]) = enqueuedTasks s.events :=
    enqueuedTasks_append_of_none rfl
  have htaken : takenTasks (s.events ++ [.free i (a, u)]) = takenTasks s.events :=
    takenTasks_append_of_none rfl
  -- the freed node is owned by worker `i`, so it is not in the queue
  refine ⟨fun hc => Chain.of_notMem (h.chain hc) (h.owned.out i a hown) hfreed, ?_,
    henq ▸ h.nodes, ?_, ?_, ?_, ?_⟩
  · show takenTasks _ ++ _ = enqueuedTasks _
    rw [htaken, henq, h.fifo]
  · show ∀ x ∈ enqueuedTasks _, x.1 < heap.fresh
    rw [henq, hfresh]
    exact h.used
  · show ∀ x ∈ enqueuedTasks _, ∀ u r, heap.cell x.1 = some ⟨u, r⟩ → u = x.2
    rw [henq]
    intro x hx v r hxr
    rw [hfreed] at hxr
    split at hxr
    · exact absurd hxr (by simp)
    · exact h.content x hx v r hxr
  · show Owned heap (owns ∘ Function.update s.worker i .ready) ns
    rw [Function.comp_update]
    exact h.owned.release hown hfreed
  · refine rounds_update h.rounds rfl ?_
    have hround := h.rounds i
    rw [hi] at hround
    obtain ⟨done, v, hdone⟩ := hround
    have hmem : (a, v) ∈ enqueuedTasks s.events :=
      h.mem_of_take (by rw [hdone]; exact List.mem_append_right _ List.mem_cons_self)
    obtain rfl := h.content (a, v) hmem u pNext hcell
    refine ⟨done ++ [(a, u)], ?_⟩
    show _ = (done ++ [(a, u)]).flatMap (round i)
    rw [hdone, List.flatMap_append, List.append_assoc]
    rfl

/-- Freeing a whole list. -/
theorem freeTasks_of_chain {heap : Heap (Node (Task φ α))} {p : Option ℕ} {fuel : ℕ}
    (h : Chain heap p ns) (hfuel : ns.length ≤ fuel) :
    ∃ heap', freeTasks fuel heap p = some heap' ∧ heap'.fresh = heap.fresh ∧
      ∀ b, heap'.cell b = if b ∈ ns.map Prod.fst then none else heap.cell b := by
  induction ns generalizing heap p fuel with
  | nil =>
    obtain rfl : p = none := h
    exact ⟨heap, by cases fuel <;> rfl, rfl, fun b => (if_neg List.not_mem_nil).symm⟩
  | cons x ms ih =>
    obtain ⟨fuel, rfl⟩ : ∃ k, fuel = k + 1 :=
      ⟨fuel - 1, by rw [List.length_cons] at hfuel; omega⟩
    -- `p_next_task` is read before the node is freed, and stays a list after it
    have happart := h.ne_head
    obtain ⟨rfl, r, hr, hrest⟩ := h
    obtain ⟨heap₁, hfree, hfresh₁, hcell₁⟩ := Heap.free_of_cell hr
    have hrest₁ : Chain heap₁ r ms := Chain.of_notMem hrest happart hcell₁
    obtain ⟨heap₂, htasks, hfresh₂, hcell₂⟩ := ih hrest₁ (Nat.le_of_succ_le_succ hfuel)
    refine ⟨heap₂, ?_, hfresh₂.trans hfresh₁, ?_⟩
    · simp only [freeTasks, hr, hfree]
      exact htasks
    · intro b
      rw [hcell₂, hcell₁, List.map_cons]
      by_cases hb : b = x.1
      · rw [hb, if_pos List.mem_cons_self, if_pos rfl]
        split <;> rfl
      · rw [if_neg hb]
        simp only [List.mem_cons, hb, false_or]

/-- `tpool_shutdown` frees the tasks nobody took. -/
theorem Books.freePool (h : Books s ns) {heap : Heap (Node (Task φ α))}
    (hcaller : s.caller ≠ .freed)
    (hfree : freeTasks s.heap.fresh s.heap s.pTaskQueue = some heap) :
    Books { s with heap, caller := .freed } ns := by
  have hchain := h.chain hcaller
  obtain ⟨h', hfree', hfresh, hcell⟩ := freeTasks_of_chain hchain hchain.length_le_fresh
  obtain rfl := Option.some.inj (hfree.symm.trans hfree')
  refine ⟨fun hc => absurd rfl hc, h.fifo, h.nodes, ?_, ?_, ⟨?_, h.owned.out, h.owned.apart⟩,
    h.rounds⟩
  · intro x hx
    show x.1 < heap.fresh
    rw [hfresh]
    exact h.used x hx
  · intro x hx u r hxr
    rw [hcell] at hxr
    split at hxr
    · exact absurd hxr (by simp)
    · exact h.content x hx u r hxr
  · -- a node a worker still owns is not among those freed here
    intro j a hj
    rw [hcell, if_neg]
    · exact h.owned.live j a hj
    · intro hmem
      obtain ⟨x, hx, hxa⟩ := List.mem_map.mp hmem
      exact h.owned.out j a hj x hx hxa

theorem Usable.ne_freed {c : CallerPc} (h : Usable c) : c ≠ .freed := by
  rintro rfl
  exact h

/-- **The step lemma.**  Every move keeps the books. -/
theorem Books.step (h : Books s ns) (hlife : Life s) {a : PoolAction n φ α}
    (hmove : PoolMove s a t) : ∃ ms, Books t ms := by
  cases hmove with
  | create hcaller hk =>
    have habsent := hlife.unborn _ hcaller ⟨_, hk⟩ (le_refl _)
    exact ⟨ns, h.of_sameTasks (sameTasks_update (by rw [habsent]; rfl) rfl)
      fun _ => by rw [hcaller]; simp⟩
  | enqueue husable hsignals hlink =>
    exact ⟨_, h.enqueue husable.ne_freed (sameTasks_wake _ _) hlink⟩
  | wait hi hcaller hqueue hrun =>
    exact ⟨ns, h.of_sameTasks (sameTasks_update (by rw [hi]; rfl) rfl) id⟩
  | exit hi hcaller hdown =>
    exact ⟨ns, h.of_sameTasks (sameTasks_update (by rw [hi]; rfl) rfl) id⟩
  | take hi hcaller hqueue hrun hcell => exact h.take hi hcaller hqueue hcell
  | call hi hcell => exact ⟨ns, h.call hi hcell⟩
  | free hi hcell hfree => exact ⟨ns, h.free hi hcell hfree⟩
  | wakeUp hi => exact ⟨ns, h.of_sameTasks (sameTasks_update (by rw [hi]; rfl) rfl) id⟩
  | shutdown hcaller =>
    exact ⟨ns, h.of_sameTasks (sameTasks_wake _ _) fun _ => by rw [hcaller]; simp⟩
  | join hcaller hk hexited =>
    exact ⟨ns, h.of_sameTasks (fun j => Or.inl rfl) fun _ => by rw [hcaller]; simp⟩
  | freePool hcaller hk hfree => exact ⟨ns, h.freePool (by rw [hcaller]; simp) hfree⟩

theorem books_of_reachable (h : Reachable poolStep (poolStart n) s) : ∃ ns, Books s ns := by
  refine h.invariant (fun s => ∃ ns, Books s ns) ⟨[], books_poolStart⟩ fun hreach hs hstep => ?_
  obtain ⟨ns, hbooks⟩ := hs
  exact hbooks.step (life_of_reachable hreach) (poolStep_move hstep)

/-! ### No action faults -/

/-- A worker with a task finds its node. -/
theorem Books.cell_of_owns (h : Books s ns) {a : ℕ} (ha : owns (s.worker i) = some a) :
    ∃ u r, s.heap.cell a = some ⟨u, r⟩ := by
  obtain ⟨⟨u, r⟩, hcell⟩ := h.owned.live i a ha
  exact ⟨u, r, hcell⟩

theorem Books.enqueue_ne_fault (h : Books s ns) (hcaller : s.caller ≠ .freed) (calloc : Bool)
    (task : Task φ α) (woken : Finset (Fin n)) : tpoolEnqueue s calloc task woken ≠ .fault := by
  obtain ⟨q, heap, hlink, _⟩ := linkLast_spec (h.chain hcaller) task
  rw [tpoolEnqueue]
  split
  · simp
  split
  · rw [hlink]
    simp
  · simp

theorem Books.lock_ne_fault (h : Books s ns) (hcaller : s.caller ≠ .freed) (i : Fin n) :
    workerLock s i ≠ .fault := by
  rw [workerLock]
  rw [if_neg hcaller]
  split
  · simp
  split
  · simp
  split
  · simp
  split
  · simp
  · rename_i a hqueue
    have hchain := h.chain hcaller
    rw [hqueue] at hchain
    obtain ⟨u, r, ms, _, hcell, _⟩ := Chain.of_some hchain
    rw [hcell]
    simp

/-- **No action faults** before the pool is freed. -/
theorem Books.ne_fault (h : Books s ns) (hcaller : s.caller ≠ .freed) (a : PoolAction n φ α) :
    poolStep s a ≠ .fault := by
  cases a with
  | create =>
    simp only [poolStep, createWorker]
    split
    · split <;> simp
    · simp
  | enqueue task woken => exact h.enqueue_ne_fault hcaller true task woken
  | lock i => exact h.lock_ne_fault hcaller i
  | call i =>
    simp only [poolStep, workerCall]
    split
    · rename_i a hi
      -- the node in the hands of a worker is live
      obtain ⟨u, r, hcell⟩ := h.cell_of_owns (show owns (s.worker i) = some a by rw [hi]; rfl)
      rw [hcell]
      simp
    · simp
  | free i =>
    simp only [poolStep, workerFree]
    split
    · rename_i a hi
      obtain ⟨u, r, hcell⟩ := h.cell_of_owns (show owns (s.worker i) = some a by rw [hi]; rfl)
      obtain ⟨heap, hfree, _⟩ := Heap.free_of_cell hcell
      rw [hcell, hfree]
      simp
    · simp
  | wakeUp i =>
    simp only [poolStep, ThreadPoolLib.wakeUp]
    split <;> simp
  | shutdown =>
    simp only [poolStep, shutdownLocked]
    split <;> simp
  | join =>
    simp only [poolStep, joinWorker]
    split
    · split
      · split <;> simp
      · simp
    · simp
  | freePool =>
    -- what is still queued is a chain of live nodes
    have hchain := h.chain hcaller
    obtain ⟨heap, hfree, _⟩ := freeTasks_of_chain hchain hchain.length_le_fresh
    simp only [poolStep, ThreadPoolLib.freePool, hfree]
    split
    · split <;> simp
    · simp

/-! ### First in, first out -/

/-- **Tasks are taken in order, each once, and each is called once.**  In every
state reached before the pool is freed, the tasks taken so far and then those in
the queue are the tasks enqueued, in order and all in different nodes; the
events of a worker are rounds of taking a task, calling it with its own argument
and freeing it, with the part of a round the worker is in; and no action faults. -/
theorem tpool_fifo (h : Reachable poolStep (poolStart n) s) (hcaller : s.caller ≠ .freed) :
    (∃ ns, Chain s.heap s.pTaskQueue ns ∧
      takenTasks s.events ++ ns = enqueuedTasks s.events) ∧
    ((enqueuedTasks s.events).map Prod.fst).Nodup ∧
    (∀ i, InRounds i (s.worker i) (workerEvents i s.events)) ∧
    ∀ a, poolStep s a ≠ .fault := by
  obtain ⟨ns, hbooks⟩ := books_of_reachable h
  exact ⟨⟨ns, hbooks.chain hcaller, hbooks.fifo⟩, hbooks.nodes, hbooks.rounds,
    hbooks.ne_fault hcaller⟩

/-- Two workers, two tasks: the first one is called and freed by one worker while the
other worker has the second one. -/
theorem tpool_fifo_two :
    ∃ s : Tpool 2 ℕ ℕ, takenTasks s.events = [(0, ⟨5, 6⟩), (1, ⟨7, 8⟩)] ∧
      workerEvents 1 s.events = [.take 1 (0, ⟨5, 6⟩), .call 1 (0, ⟨5, 6⟩), .free 1 (0, ⟨5, 6⟩)] ∧
      s.worker 0 = .called 1 ∧
      (∃ ns, Chain s.heap s.pTaskQueue ns ∧
        takenTasks s.events ++ ns = enqueuedTasks s.events) ∧
      ((enqueuedTasks s.events).map Prod.fst).Nodup ∧
      (∀ i, InRounds i (s.worker i) (workerEvents i s.events)) ∧
      ∀ a, poolStep s a ≠ .fault := by
  have hrun : Run poolStep (poolStart 2 : Tpool 2 ℕ ℕ)
    [.create, .create, .enqueue ⟨5, 6⟩ ∅, .lock 1, .enqueue ⟨7, 8⟩ ∅, .lock 0, .call 1, .call 0,
      .free 1] _ := run_of_exec rfl
  exact ⟨_, rfl, rfl, rfl, tpool_fifo ⟨_, hrun⟩ (by decide)⟩

end ThreadPoolLib
