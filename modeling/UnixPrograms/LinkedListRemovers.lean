/-
Threads that remove elements from one list at the same time.

`llist_remove_front` tests `is_llist_empty` before it takes the mutex and does
not test again.  Each thread has a number of calls left to make; a call is

* `test` — the emptiness test; on an empty list the call returns NULL;
* `remove` — the mutex-protected section;
* `finish` — the data of the unlinked node is returned and the node freed.

`removers_sound_iff` says for which lists and calls every interleaving is right:
the list is empty, or one thread makes all the calls, or there are at most as
many calls as elements.
-/
import UnixPrograms.LinkedList
import UnixPrograms.Interleaving

namespace LinkedListLib

open Memory Interleaving

variable {α : Type} {T : ℕ}

/-- Where a thread is: outside a call, between the emptiness test and the
mutex, or after the unlock with the node `temp`. -/
inductive RemoverPc where
  | idle
  | passed
  | unlinked (temp : ℕ)
  deriving DecidableEq

/-- A thread, and how many calls it has yet to start. -/
structure Remover where
  pc : RemoverPc
  left : ℕ
  deriving DecidableEq

/-- The list, the threads, and the answers given so far (NULL is `none`). -/
structure Removers (T : ℕ) (α : Type) where
  list : Llist α
  thread : Fin T → Remover
  answers : List (Option α)

/-- The actions of thread `i`. -/
inductive RemoverAction (T : ℕ) where
  | test (i : Fin T)
  | remove (i : Fin T)
  | finish (i : Fin T)

/-- One action of `llist_remove_front` (or `llist_pop`, `llist_dequeue`). -/
def removerStep (s : Removers T α) : RemoverAction T → Outcome (Removers T α)
  | .test i =>
    match s.thread i with
    | ⟨.idle, left + 1⟩ =>
      if isLlistEmpty s.list ≠ 0 then
        .next { s with
          thread := Function.update s.thread i ⟨.idle, left⟩, answers := s.answers ++ [none] }
      else
        .next { s with thread := Function.update s.thread i ⟨.passed, left⟩ }
    | _ => .blocked
  | .remove i =>
    match s.thread i with
    | ⟨.passed, left⟩ =>
      match unlinkFront s.list with
      | none => .fault
      | some (temp, list) =>
        .next { s with list, thread := Function.update s.thread i ⟨.unlinked temp, left⟩ }
    | _ => .blocked
  | .finish i =>
    match s.thread i with
    | ⟨.unlinked temp, left⟩ =>
      match releaseNode s.list temp with
      | none => .fault
      | some (data, list) =>
        .next { list, thread := Function.update s.thread i ⟨.idle, left⟩,
                answers := s.answers ++ [some data] }
    | _ => .blocked

/-- The threads before their first call. -/
def removersStart (list : Llist α) (calls : Fin T → ℕ) : Removers T α :=
  ⟨list, fun i => ⟨.idle, calls i⟩, []⟩

/-- The data returned so far. -/
def returned (s : Removers T α) : List α := s.answers.filterMap id

/-- How many calls returned NULL so far. -/
def nulls (s : Removers T α) : ℕ := s.answers.countP Option.isNone

/-- Every call has returned. -/
def Finished (s : Removers T α) : Prop := ∀ i, s.thread i = ⟨.idle, 0⟩

/-- What the calls should do in every interleaving: no action faults, `count`
does not wrap, nothing is returned twice, and when all calls have returned they
took the first elements, one each, the surplus calls answering NULL. -/
def RemoversSound (list : Llist α) (contents : List α) (calls : Fin T → ℕ) : Prop :=
  ∀ s, Reachable removerStep (removersStart list calls) s →
    (∀ a, removerStep s a ≠ .fault) ∧ s.list.count ≤ contents.length ∧
    (returned s).Subperm contents ∧
    (Finished s → (returned s).Perm (contents.take (∑ i, calls i)) ∧
      nulls s = ∑ i, calls i - contents.length)

/-! ### What one action does -/

variable {s s' : Removers T α} {i : Fin T} {left temp : ℕ}

theorem test_empty (hi : s.thread i = ⟨.idle, left + 1⟩) (he : isLlistEmpty s.list ≠ 0) :
    removerStep s (.test i) = .next { s with
      thread := Function.update s.thread i ⟨.idle, left⟩, answers := s.answers ++ [none] } := by
  simp only [removerStep, hi]
  exact if_pos he

theorem test_pass (hi : s.thread i = ⟨.idle, left + 1⟩) (he : isLlistEmpty s.list = 0) :
    removerStep s (.test i) = .next { s with
      thread := Function.update s.thread i ⟨.passed, left⟩ } := by
  simp only [removerStep, hi]
  exact if_neg (not_not.mpr he)

theorem remove_some {list : Llist α} (hi : s.thread i = ⟨.passed, left⟩)
    (hu : unlinkFront s.list = some (temp, list)) :
    removerStep s (.remove i) = .next { s with
      list, thread := Function.update s.thread i ⟨.unlinked temp, left⟩ } := by
  simp only [removerStep, hi, hu]

theorem remove_fault (hi : s.thread i = ⟨.passed, left⟩) (hu : unlinkFront s.list = none) :
    removerStep s (.remove i) = .fault := by
  simp only [removerStep, hi, hu]

theorem finish_some {list : Llist α} {d : α} (hi : s.thread i = ⟨.unlinked temp, left⟩)
    (hr : releaseNode s.list temp = some (d, list)) :
    removerStep s (.finish i) = .next
      { list, thread := Function.update s.thread i ⟨.idle, left⟩,
        answers := s.answers ++ [some d] } := by
  simp only [removerStep, hi, hr]

/-- The three actions in a row are a call of `llist_remove_front`. -/
theorem exec_call {list : Llist α} {d : α} (hi : s.thread i = ⟨.idle, left + 1⟩)
    (h : llistRemoveFront s.list = some (some d, list)) :
    exec removerStep s [.test i, .remove i, .finish i] = .next
      { list, thread := Function.update s.thread i ⟨.idle, left⟩,
        answers := s.answers ++ [some d] } := by
  by_cases he : isLlistEmpty s.list = 0
  · rw [llistRemoveFront, if_neg (not_not.mpr he)] at h
    obtain ⟨⟨temp, l⟩, hunlink, h⟩ := Option.bind_eq_some_iff.mp h
    obtain ⟨⟨e, l'⟩, hrelease, h⟩ := Option.bind_eq_some_iff.mp h
    obtain ⟨hd, rfl⟩ := Prod.mk.inj (Option.some.inj h)
    obtain rfl := Option.some.inj hd
    have hremove := remove_some
      (s := { s with thread := Function.update s.thread i ⟨.passed, left⟩ })
      (Function.update_self i _ _) hunlink
    have hfinish := finish_some
      (s := { s with list := l, thread := Function.update s.thread i ⟨.unlinked temp, left⟩ })
      (Function.update_self i _ _) hrelease
    simp only [exec, test_pass hi he, hremove, hfinish, Function.update_idem]
  · rw [llistRemoveFront, if_pos he] at h
    exact absurd (Prod.mk.inj (Option.some.inj h)).1 (by simp)

/-- Where a thread must be for its action not to be blocked. -/
theorem removerStep_ready {a : RemoverAction T} (h : removerStep s a ≠ .blocked) :
    (∃ i left, a = .test i ∧ s.thread i = ⟨.idle, left + 1⟩) ∨
    (∃ i left, a = .remove i ∧ s.thread i = ⟨.passed, left⟩) ∨
    (∃ i left temp, a = .finish i ∧ s.thread i = ⟨.unlinked temp, left⟩) := by
  cases a with
  | test i =>
    refine Or.inl ⟨i, ?_⟩
    simp only [removerStep] at h
    split at h
    · rename_i left heq
      exact ⟨left, rfl, heq⟩
    · exact absurd rfl h
  | remove i =>
    refine Or.inr (Or.inl ⟨i, ?_⟩)
    simp only [removerStep] at h
    split at h
    · rename_i left heq
      exact ⟨left, rfl, heq⟩
    · exact absurd rfl h
  | finish i =>
    refine Or.inr (Or.inr ⟨i, ?_⟩)
    simp only [removerStep] at h
    split at h
    · rename_i temp left heq
      exact ⟨left, temp, rfl, heq⟩
    · exact absurd rfl h

/-! ### The account every interleaving keeps -/

/-- The data a thread holds but has not returned yet. -/
def held (heap : Heap (Node α)) (th : Remover) : Multiset α :=
  match th.pc with
  | .unlinked temp =>
    match heap.cell temp with
    | some node => {node.data}
    | none => 0
  | _ => 0

/-- The node a thread has unlinked but not freed yet. -/
def owns (th : Remover) : Option ℕ :=
  match th.pc with
  | .unlinked temp => some temp
  | _ => none

/-- The calls a thread has not returned from. -/
def openCalls (th : Remover) : ℕ := th.left + if th.pc = .idle then 0 else 1

@[simp] theorem held_idle (heap : Heap (Node α)) (left : ℕ) : held heap ⟨.idle, left⟩ = 0 := rfl

@[simp] theorem held_passed (heap : Heap (Node α)) (left : ℕ) :
    held heap ⟨.passed, left⟩ = 0 := rfl

theorem held_unlinked {heap : Heap (Node α)} {temp left : ℕ} {n : Node α}
    (h : heap.cell temp = some n) : held heap ⟨.unlinked temp, left⟩ = {n.data} := by
  simp only [held, h]

@[simp] theorem openCalls_idle (left : ℕ) : openCalls ⟨.idle, left⟩ = left := rfl

@[simp] theorem openCalls_passed (left : ℕ) : openCalls ⟨.passed, left⟩ = left + 1 := rfl

@[simp] theorem openCalls_unlinked (temp left : ℕ) :
    openCalls ⟨.unlinked temp, left⟩ = left + 1 := rfl

/-- As long as no action faults: `contents` is what was taken followed by what
is in the list, and what was taken is returned or owned by exactly one thread. -/
structure Account (contents : List α) (calls : ℕ) (s : Removers T α)
    (ns : List (ℕ × α)) (taken : List α) : Prop where
  nodes : Nodes s.list ns
  split : contents = taken ++ ns.map Prod.snd
  handed : (returned s : Multiset α) + total (held s.list.heap) s.thread = taken
  drained : 0 < nulls s → ns = []
  owned : Owned s.list.heap (owns ∘ s.thread) ns
  open_calls : s.answers.length + total openCalls s.thread = calls

variable {contents taken : List α} {calls : ℕ} {ns : List (ℕ × α)}

/-- A thread that neither takes nor frees a node leaves the owners as they are. -/
theorem owns_update {f : Fin T → Remover} {th : Remover} (h : owns th = owns (f i)) :
    owns ∘ Function.update f i th = owns ∘ f := by
  rw [Function.comp_update, h]
  exact Function.update_eq_self i (owns ∘ f)

theorem Account.start {l : Llist α} (h : Nodes l ns) (calls : Fin T → ℕ) :
    Account (ns.map Prod.snd) (∑ i, calls i) (removersStart l calls) ns [] where
  nodes := h
  split := rfl
  handed := by simp [removersStart, returned, total, held]
  drained hpos := absurd hpos (by simp [removersStart, nulls])
  owned := Owned.nobody fun i => rfl
  open_calls := by simp [removersStart, total, openCalls]

/-- A call that finds the list empty answers NULL. -/
theorem Account.test_empty (h : Account contents calls s ns taken)
    (hi : s.thread i = ⟨.idle, left + 1⟩) (he : isLlistEmpty s.list ≠ 0) :
    Account contents calls { s with
      thread := Function.update s.thread i ⟨.idle, left⟩, answers := s.answers ++ [none] }
      ns taken where
  nodes := h.nodes
  split := h.split
  handed := by
    have hmove := total_update (held s.list.heap) s.thread i ⟨.idle, left⟩
    rw [hi, held_idle, held_idle, add_zero, add_zero] at hmove
    rw [← h.handed]
    show ((s.answers ++ [none]).filterMap id : Multiset α) + total (held s.list.heap) _ = _
    have hsame : (s.answers ++ [none]).filterMap id = returned s := by
      simp [returned]
    rw [hsame, hmove]
  drained _ := by
    by_contra hne
    exact he (h.nodes.isLlistEmpty_eq_zero.mpr hne)
  owned := by
    show Owned _ (owns ∘ Function.update s.thread i _) ns
    rw [owns_update (by rw [hi]; rfl)]
    exact h.owned
  open_calls := by
    have hmove := total_update openCalls s.thread i ⟨.idle, left⟩
    have hcalls := h.open_calls
    rw [hi, openCalls_idle, openCalls_idle] at hmove
    rw [List.length_append, List.length_singleton]
    show _ + total openCalls (Function.update s.thread i _) = _
    omega

/-- A call that finds the list non-empty goes on to the mutex. -/
theorem Account.test_pass (h : Account contents calls s ns taken)
    (hi : s.thread i = ⟨.idle, left + 1⟩) :
    Account contents calls { s with thread := Function.update s.thread i ⟨.passed, left⟩ }
      ns taken where
  nodes := h.nodes
  split := h.split
  handed := by
    have hmove := total_update (held s.list.heap) s.thread i ⟨.passed, left⟩
    rw [hi, held_idle, held_passed, add_zero, add_zero] at hmove
    rw [← h.handed]
    exact congrArg _ hmove
  drained := h.drained
  owned := by
    show Owned _ (owns ∘ Function.update s.thread i _) ns
    rw [owns_update (by rw [hi]; rfl)]
    exact h.owned
  open_calls := by
    have hmove := total_update openCalls s.thread i ⟨.passed, left⟩
    have hcalls := h.open_calls
    rw [hi, openCalls_idle, openCalls_passed] at hmove
    show s.answers.length + total openCalls (Function.update s.thread i _) = _
    omega

/-- The locked section moves the first node from the list to the thread. -/
theorem Account.remove {n : ℕ × α} (h : Account contents calls s (n :: ns) taken)
    (hc : contents.length < 2 ^ 64) (hi : s.thread i = ⟨.passed, left⟩) :
    ∃ list, removerStep s (.remove i) = .next { s with
        list, thread := Function.update s.thread i ⟨.unlinked n.1, left⟩ } ∧
      Account contents calls { s with
        list, thread := Function.update s.thread i ⟨.unlinked n.1, left⟩ }
        ns (taken ++ [n.2]) := by
  have hlen := congrArg List.length h.split
  rw [List.length_append, List.length_map, ← h.nodes.count] at hlen
  obtain ⟨list, r, hunlink, hrest, hheap, _, hcell⟩ := unlinkFront_spec h.nodes (by omega)
  refine ⟨list, remove_some hi hunlink, hrest, ?_, ?_, ?_, ?_, ?_⟩
  · rw [h.split, List.map_cons, List.append_assoc, List.singleton_append]
  · have hmove := total_update (held s.list.heap) s.thread i ⟨.unlinked n.1, left⟩
    rw [hi, held_passed, held_unlinked hcell, add_zero] at hmove
    rw [hheap]
    show (returned s : Multiset α) + total (held s.list.heap) (Function.update s.thread i _) = _
    rw [hmove, ← add_assoc, h.handed]
    rfl
  · intro hpos
    exact absurd (h.drained hpos) (List.cons_ne_nil n ns)
  · show Owned list.heap (owns ∘ Function.update s.thread i _) ns
    rw [hheap, Function.comp_update]
    exact h.owned.take h.nodes.chain i
  · have hmove := total_update openCalls s.thread i ⟨.unlinked n.1, left⟩
    have hcalls := h.open_calls
    rw [hi, openCalls_passed, openCalls_unlinked] at hmove
    show s.answers.length + total openCalls (Function.update s.thread i _) = _
    omega

/-- A call returns the data of the node it unlinked, and frees the node. -/
theorem Account.finish (h : Account contents calls s ns taken)
    (hi : s.thread i = ⟨.unlinked temp, left⟩) :
    ∃ list d, removerStep s (.finish i) = .next
        { list, thread := Function.update s.thread i ⟨.idle, left⟩,
          answers := s.answers ++ [some d] } ∧
      Account contents calls
        { list, thread := Function.update s.thread i ⟨.idle, left⟩,
          answers := s.answers ++ [some d] } ns taken := by
  have hown : (owns ∘ s.thread) i = some temp := by
    show owns (s.thread i) = some temp
    rw [hi]
    rfl
  obtain ⟨⟨d, r⟩, hcell⟩ := h.owned.live i temp hown
  obtain ⟨heap, hrelease, _, hfreed⟩ := releaseNode_spec hcell
  refine ⟨_, d, finish_some hi hrelease,
    ⟨Chain.of_notMem h.nodes.chain (h.owned.out i temp hown) hfreed, h.nodes.count⟩,
    h.split, ?_, ?_, ?_, ?_⟩
  · -- only thread `i` holds the freed node
    have hsame : ∀ j, j ≠ i → held heap (s.thread j) = held s.list.heap (s.thread j) := by
      intro j hji
      unfold held
      cases hj : (s.thread j).pc with
      | idle | passed => rfl
      | unlinked a =>
        have hown' : (owns ∘ s.thread) j = some a := by
          show owns (s.thread j) = some a
          rw [owns]
          rw [hj]
        have hne : a ≠ temp := fun heq => hji (h.owned.apart j i temp (heq ▸ hown') hown)
        simp only [hfreed, if_neg hne]
    have hmove := total_update_of_ne ⟨.idle, left⟩ hsame
    rw [hi, held_idle, held_unlinked hcell, add_zero] at hmove
    rw [← h.handed, ← hmove]
    show ((s.answers ++ [some d]).filterMap id : Multiset α) + _ = _
    have hnew : (s.answers ++ [some d]).filterMap id = returned s ++ [d] := by
      simp [returned]
    rw [hnew, ← Multiset.coe_add, Multiset.coe_singleton]
    show _ + total (held heap) (Function.update s.thread i _) = _
    abel
  · intro hpos
    refine h.drained ?_
    simpa [nulls] using hpos
  · show Owned heap (owns ∘ Function.update s.thread i _) ns
    rw [Function.comp_update]
    exact h.owned.release hown hfreed
  · have hmove := total_update openCalls s.thread i ⟨.idle, left⟩
    have hcalls := h.open_calls
    rw [hi, openCalls_idle, openCalls_unlinked] at hmove
    rw [List.length_append, List.length_singleton]
    show _ + total openCalls (Function.update s.thread i _) = _
    omega

/-! ### What the account says about the answers -/

theorem length_returned_add_nulls (s : Removers T α) :
    (returned s).length + nulls s = s.answers.length := by
  unfold returned nulls
  induction s.answers with
  | nil => rfl
  | cons p ps ih =>
    cases p with
    | none =>
      rw [List.filterMap_cons_none rfl, List.countP_cons_of_pos rfl, List.length_cons]
      omega
    | some d =>
      have hcons : (some d :: ps).filterMap id = d :: ps.filterMap id := rfl
      rw [hcons, List.countP_cons_of_neg (by simp), List.length_cons, List.length_cons]
      omega

theorem Account.count_le (h : Account contents calls s ns taken) :
    s.list.count ≤ contents.length := by
  rw [h.nodes.count, h.split, List.length_append, List.length_map]
  omega

theorem Account.subperm (h : Account contents calls s ns taken) :
    (returned s).Subperm contents := by
  have htaken : (returned s : Multiset α) ≤ taken := h.handed ▸ le_self_add
  rw [h.split]
  exact (Multiset.coe_le.mp htaken).trans (List.sublist_append_left _ _).subperm

/-- When all calls have returned, they took the first elements. -/
theorem Account.finished (h : Account contents calls s ns taken) (hfin : Finished s) :
    (returned s).Perm (contents.take calls) ∧ nulls s = calls - contents.length := by
  have hheld : total (held s.list.heap) s.thread = 0 :=
    Finset.sum_eq_zero fun i _ => by rw [hfin i, held_idle]
  have hopen : total openCalls s.thread = 0 :=
    total_eq_zero.mpr fun i => by rw [hfin i, openCalls_idle]
  have hhanded := h.handed
  have hcalls := h.open_calls
  rw [hheld, add_zero] at hhanded
  have hperm := Multiset.coe_eq_coe.mp hhanded
  have hlen := hperm.length_eq
  have hsum := length_returned_add_nulls s
  rw [h.split]
  -- a NULL was only answered once the list was empty
  rcases Nat.eq_zero_or_pos (nulls s) with hzero | hpos
  · have hcount : calls = taken.length := by omega
    rw [hcount, List.take_left, hzero, List.length_append]
    exact ⟨hperm, by omega⟩
  · rw [h.drained hpos, List.map_nil, List.append_nil, List.take_of_length_le (by omega)]
    exact ⟨hperm, by omega⟩

/-! ### Why some lists and calls are safe -/

/-- A thread between the emptiness test and the mutex. -/
def waiting (th : Remover) : ℕ := if th.pc = .passed then 1 else 0

/-- The removals a thread may still do. -/
def demand (th : Remover) : ℕ := th.left + waiting th

@[simp] theorem waiting_idle (left : ℕ) : waiting ⟨.idle, left⟩ = 0 := rfl

@[simp] theorem waiting_passed (left : ℕ) : waiting ⟨.passed, left⟩ = 1 := rfl

@[simp] theorem waiting_unlinked (temp left : ℕ) : waiting ⟨.unlinked temp, left⟩ = 0 := rfl

theorem waiting_le_demand (th : Remover) : waiting th ≤ demand th := Nat.le_add_left _ _

/-- There is a node for every thread that waits for the mutex, for one of three
reasons: nothing is left, only one thread removes, or nobody can ask for more
than there is. -/
structure Guarded (s : Removers T α) (ns : List (ℕ × α)) : Prop where
  enough : total waiting s.thread ≤ ns.length
  reason : ns = [] ∨ (∃ k, ∀ i, i ≠ k → demand (s.thread i) = 0) ∨
    total demand s.thread ≤ ns.length

theorem Guarded.start {l : Llist α} {calls : Fin T → ℕ}
    (h : ns = [] ∨ (∃ k, ∀ i, i ≠ k → calls i = 0) ∨ ∑ i, calls i ≤ ns.length) :
    Guarded (removersStart l calls) ns where
  enough := by
    have hzero : total waiting (removersStart l calls).thread = 0 :=
      total_eq_zero.mpr fun i => rfl
    omega
  reason := h

/-- Other threads still ask for nothing after a move that adds no demand. -/
theorem demand_update {f : Fin T → Remover} {k : Fin T} {th : Remover}
    (hle : demand th ≤ demand (f i)) (hk : ∀ j, j ≠ k → demand (f j) = 0) :
    ∀ j, j ≠ k → demand (Function.update f i th j) = 0 := by
  intro j hj
  have hzero := hk j hj
  by_cases hji : j = i
  · rw [hji, Function.update_self]
    rw [hji] at hzero
    omega
  · rw [Function.update_of_ne hji, hzero]

/-- A move that adds no demand keeps the reason. -/
theorem Guarded.reason_update (h : Guarded s ns) (th : Remover)
    (hle : demand th ≤ demand (s.thread i)) :
    ns = [] ∨ (∃ k, ∀ j, j ≠ k → demand (Function.update s.thread i th j) = 0) ∨
      total demand (Function.update s.thread i th) ≤ ns.length := by
  obtain hnil | ⟨k, hk⟩ | htotal := h.reason
  · exact Or.inl hnil
  · exact Or.inr (Or.inl ⟨k, demand_update hle hk⟩)
  · have hmove := total_update demand s.thread i th
    exact Or.inr (Or.inr (by omega))

theorem Guarded.test_empty (h : Guarded s ns) (hi : s.thread i = ⟨.idle, left + 1⟩)
    (answers : List (Option α)) :
    Guarded { s with thread := Function.update s.thread i ⟨.idle, left⟩, answers } ns where
  enough := by
    have hmove := total_update waiting s.thread i ⟨.idle, left⟩
    have henough := h.enough
    rw [hi, waiting_idle, waiting_idle] at hmove
    show total waiting (Function.update s.thread i _) ≤ _
    omega
  reason := h.reason_update _ (by rw [hi]; exact Nat.le_succ left)

/-- Here the reasons are needed: the test saw a node, and it is still there for
this thread besides those the other threads wait for. -/
theorem Guarded.test_pass (h : Guarded s ns) (hi : s.thread i = ⟨.idle, left + 1⟩)
    (hne : ns ≠ []) :
    Guarded { s with thread := Function.update s.thread i ⟨.passed, left⟩ } ns := by
  have hreason := h.reason_update (i := i) ⟨.passed, left⟩ (by rw [hi]; rfl)
  refine ⟨?_, hreason⟩
  show total waiting (Function.update s.thread i _) ≤ _
  obtain hnil | ⟨k, hk⟩ | htotal := hreason
  · exact absurd hnil hne
  · -- only thread `k` has demand, and `i` has some: nobody else waits
    have hpos := List.length_pos_iff.mpr hne
    have hki : i = k := by
      by_contra hik
      have hzero := hk i hik
      rw [Function.update_self] at hzero
      exact absurd hzero (Nat.succ_ne_zero left)
    have hone := total_eq_single (w := waiting) (f := Function.update s.thread i ⟨.passed, left⟩) i
      fun j hj => Nat.le_zero.mp (hk j (hki ▸ hj) ▸ waiting_le_demand _)
    rw [hone, Function.update_self, waiting_passed]
    omega
  · exact (total_mono waiting_le_demand).trans htotal

theorem Guarded.remove {n : ℕ × α} (h : Guarded s (n :: ns))
    (hi : s.thread i = ⟨.passed, left⟩) (list : Llist α) :
    Guarded { s with list, thread := Function.update s.thread i ⟨.unlinked temp, left⟩ } ns where
  enough := by
    have hmove := total_update waiting s.thread i ⟨.unlinked temp, left⟩
    have henough := h.enough
    rw [hi, waiting_passed, waiting_unlinked] at hmove
    rw [List.length_cons] at henough
    show total waiting (Function.update s.thread i _) ≤ _
    omega
  reason := by
    have hdrop : demand ⟨.passed, left⟩ = demand ⟨.unlinked temp, left⟩ + 1 := rfl
    have hmove := total_update demand s.thread i ⟨.unlinked temp, left⟩
    rw [hi] at hmove
    obtain hnil | ⟨k, hk⟩ | htotal := h.reason
    · exact absurd hnil (List.cons_ne_nil n ns)
    · exact Or.inr (Or.inl ⟨k, demand_update (by rw [hi]; omega) hk⟩)
    · rw [List.length_cons] at htotal
      exact Or.inr (Or.inr (by show total demand (Function.update s.thread i _) ≤ _; omega))

theorem Guarded.finish (h : Guarded s ns) (hi : s.thread i = ⟨.unlinked temp, left⟩)
    (list : Llist α) (answers : List (Option α)) :
    Guarded { list, thread := Function.update s.thread i ⟨.idle, left⟩, answers } ns where
  enough := by
    have hmove := total_update waiting s.thread i ⟨.idle, left⟩
    have henough := h.enough
    rw [hi, waiting_unlinked, waiting_idle] at hmove
    show total waiting (Function.update s.thread i _) ≤ _
    omega
  reason := h.reason_update _ (by rw [hi]; rfl)

/-- What every interleaving keeps when it starts guarded. -/
def Accounted (contents : List α) (calls : ℕ) (s : Removers T α) : Prop :=
  ∃ ns taken, Account contents calls s ns taken ∧ Guarded s ns

/-- A thread that waits for the mutex finds a node. -/
theorem Guarded.ne_nil (h : Guarded s ns) (hi : s.thread i = ⟨.passed, left⟩) :
    ∃ n ms, ns = n :: ms := by
  have hle := le_total waiting s.thread i
  have henough := h.enough
  rw [hi, waiting_passed] at hle
  cases ns with
  | nil => simp only [List.length_nil] at henough; omega
  | cons n ms => exact ⟨n, ms, rfl⟩

/-- **The step lemma.**  No action faults, and each keeps the account. -/
theorem Accounted.step (h : Accounted contents calls s) (hc : contents.length < 2 ^ 64)
    (a : RemoverAction T) :
    removerStep s a ≠ .fault ∧
      ∀ t, removerStep s a = .next t → Accounted contents calls t := by
  obtain ⟨ns, taken, hacc, hguard⟩ := h
  by_cases hready : removerStep s a = .blocked
  · rw [hready]
    exact ⟨by simp, fun t ht => absurd ht (by simp)⟩
  obtain ⟨i, left, rfl, hi⟩ | ⟨i, left, rfl, hi⟩ | ⟨i, left, temp, rfl, hi⟩ :=
    removerStep_ready hready
  -- the test, the locked section and the release of the node
  · by_cases he : isLlistEmpty s.list = 0
    · rw [test_pass hi he]
      refine ⟨by simp, ?_⟩
      intro t ht
      obtain rfl := Outcome.next.inj ht
      exact ⟨ns, taken, hacc.test_pass hi,
        hguard.test_pass hi (hacc.nodes.isLlistEmpty_eq_zero.mp he)⟩
    · rw [test_empty hi he]
      refine ⟨by simp, ?_⟩
      intro t ht
      obtain rfl := Outcome.next.inj ht
      exact ⟨ns, taken, hacc.test_empty hi he, hguard.test_empty hi _⟩
  · -- a thread that has passed the test finds a node
    obtain ⟨n, ms, rfl⟩ := hguard.ne_nil hi
    obtain ⟨list, hstep, hacc'⟩ := hacc.remove hc hi
    rw [hstep]
    refine ⟨by simp, ?_⟩
    intro t ht
    obtain rfl := Outcome.next.inj ht
    exact ⟨ms, _, hacc', hguard.remove hi list⟩
  · obtain ⟨list, d, hstep, hacc'⟩ := hacc.finish hi
    rw [hstep]
    refine ⟨by simp, ?_⟩
    intro t ht
    obtain rfl := Outcome.next.inj ht
    exact ⟨ns, taken, hacc', hguard.finish hi list _⟩

/-- Guarded starts are sound in every interleaving. -/
theorem removersSound_of_guarded {l : Llist α} {calls : Fin T → ℕ} (h : Nodes l ns)
    (hc : l.count < 2 ^ 64)
    (hg : ns = [] ∨ (∃ k, ∀ i, i ≠ k → calls i = 0) ∨ ∑ i, calls i ≤ ns.length) :
    RemoversSound l (ns.map Prod.snd) calls := by
  intro s hs
  have hlen : (ns.map Prod.snd).length < 2 ^ 64 := by
    rw [List.length_map, ← h.count]
    exact hc
  have hacc := hs.invariant (Accounted (ns.map Prod.snd) (∑ i, calls i))
    ⟨ns, [], .start h calls, .start hg⟩ fun _ ht hstep => (ht.step hlen _).2 _ hstep
  obtain ⟨ms, taken, hacc', _⟩ := id hacc
  exact ⟨fun a => (hacc.step hlen a).1, hacc'.count_le, hacc'.subperm, hacc'.finished⟩

/-! ### Why no others are -/

/-- One whole call of a thread on a list with a node. -/
theorem call_run {n : ℕ × α} (h : Nodes s.list (n :: ns)) (hc : s.list.count < 2 ^ 64)
    (hi : s.thread i = ⟨.idle, left + 1⟩) :
    ∃ t, Reachable removerStep s t ∧ Nodes t.list ns ∧ t.list.count < 2 ^ 64 ∧
      t.thread = Function.update s.thread i ⟨.idle, left⟩ := by
  obtain ⟨list, hremove, hrest, _⟩ := llistRemoveFront_cons h hc
  have hcount := h.count
  rw [List.length_cons] at hcount
  refine ⟨_, ⟨_, run_of_exec (exec_call hi hremove)⟩, hrest, ?_, rfl⟩
  show list.count < 2 ^ 64
  rw [hrest.count]
  omega

/-- Two threads that both pass the emptiness test on one node: the second one
reads through NULL. -/
theorem fault_of_two {n : ℕ × α} {i j : Fin T} {a b : ℕ} (h : Nodes s.list [n])
    (hc : s.list.count < 2 ^ 64) (hij : j ≠ i) (hi : s.thread i = ⟨.idle, a + 1⟩)
    (hj : s.thread j = ⟨.idle, b + 1⟩) :
    ∃ t act, Reachable removerStep s t ∧ removerStep t act = .fault := by
  have he : isLlistEmpty s.list = 0 := h.isLlistEmpty_eq_zero.mpr (List.cons_ne_nil n [])
  obtain ⟨list, r, hunlink, hrest, _⟩ := unlinkFront_spec h hc
  have htest := test_pass hi he
  have htest' := test_pass (i := j)
    (s := { s with thread := Function.update s.thread i ⟨.passed, a⟩ })
    ((Function.update_of_ne hij _ _).trans hj) he
  have hremove := remove_some (i := i)
    (s := { s with
      thread := Function.update (Function.update s.thread i ⟨.passed, a⟩) j ⟨.passed, b⟩ })
    ((Function.update_of_ne hij.symm _ _).trans (Function.update_self i _ _)) hunlink
  refine ⟨_, .remove j, .head htest (.head htest' (.head hremove (.refl _))), ?_⟩
  exact remove_fault ((Function.update_of_ne hij _ _).trans (Function.update_self j _ _))
    (unlinkFront_eq_none hrest.chain)

/-- With more calls than the two that are kept back, some thread can spare one. -/
theorem exists_spare {calls : Fin T → ℕ} (i j : Fin T) (h : 3 ≤ ∑ k, calls k) :
    ∃ k, (if k = i then 1 else 0) + (if k = j then 1 else 0) < calls k := by
  by_contra hnone
  have hle : ∑ k, calls k ≤ ∑ k, ((if k = i then 1 else 0) + (if k = j then 1 else 0)) :=
    Finset.sum_le_sum fun k _ => Nat.le_of_not_lt fun hlt => hnone ⟨k, hlt⟩
  rw [Finset.sum_add_distrib, Finset.sum_ite_eq' Finset.univ i, Finset.sum_ite_eq' Finset.univ j,
    if_pos (Finset.mem_univ i), if_pos (Finset.mem_univ j)] at hle
  omega

/-- **The bad interleaving.**  Two threads keep one call each until one node is
left; by induction on the nodes before it, which other calls take away. -/
theorem exists_fault {i j : Fin T} (hij : j ≠ i) {calls : Fin T → ℕ}
    (h : Nodes s.list ns) (hc : s.list.count < 2 ^ 64) (hne : ns ≠ [])
    (hthread : s.thread = fun k => ⟨.idle, calls k⟩) (hi : 0 < calls i) (hj : 0 < calls j)
    (hmore : ns.length < ∑ k, calls k) :
    ∃ t act, Reachable removerStep s t ∧ removerStep t act = .fault := by
  induction ns generalizing s calls with
  | nil => exact absurd rfl hne
  | cons n ms ih =>
    rcases List.eq_nil_or_concat' ms with rfl | ⟨us, u, hms⟩
    · refine fault_of_two (i := i) (j := j) (a := calls i - 1) (b := calls j - 1) h hc hij ?_ ?_
      · rw [hthread, Nat.sub_add_cancel hi]
      · rw [hthread, Nat.sub_add_cancel hj]
    · have hms' : ms ≠ [] := by simp [hms]
      have hpos := List.length_pos_iff.mpr hms'
      rw [List.length_cons] at hmore
      obtain ⟨k, hk⟩ := exists_spare i j (show 3 ≤ ∑ k, calls k by omega)
      have hidle : s.thread k = ⟨.idle, calls k - 1 + 1⟩ := by
        rw [hthread, Nat.sub_add_cancel (by omega)]
      obtain ⟨t, hreach, hnodes, hct, hthread'⟩ := call_run h hc hidle
      -- the thread that called has a call less, and still one if it is `i` or `j`
      have hsum := total_update (fun c => c) calls k (calls k - 1)
      have hcalls : ∀ l, Function.update calls k (calls k - 1) l =
          if l = k then calls k - 1 else calls l := fun l => Function.update_apply calls k _ l
      have hnext : t.thread = fun l => ⟨.idle, Function.update calls k (calls k - 1) l⟩ := by
        rw [hthread', hthread]
        funext l
        rw [hcalls, Function.update_apply]
        split <;> rfl
      have hi' : 0 < Function.update calls k (calls k - 1) i := by
        rw [hcalls]
        split
        · rename_i hik
          rw [if_pos hik.symm] at hk
          omega
        · exact hi
      have hj' : 0 < Function.update calls k (calls k - 1) j := by
        rw [hcalls]
        split
        · rename_i hjk
          rw [if_pos hjk.symm] at hk
          omega
        · exact hj
      have hmore' : ms.length < total (fun c => c) (Function.update calls k (calls k - 1)) := by
        have htotal : total (fun c => c) calls = ∑ k, calls k := rfl
        omega
      obtain ⟨t', act, hreach', hfault⟩ := ih hnodes hct hms' hnext hi' hj' hmore'
      exact ⟨t', act, hreach.trans hreach', hfault⟩

/-- **Exactly when the calls are safe.**  However many threads call
`llist_remove_front` however often, every interleaving is right if and only if
the list is empty, or at most one thread calls, or there are not more calls than
elements. -/
theorem removers_sound_iff {l : Llist α} {calls : Fin T → ℕ} (h : Nodes l ns)
    (hc : l.count < 2 ^ 64) :
    RemoversSound l (ns.map Prod.snd) calls ↔
      ns = [] ∨ (∃ k, ∀ i, i ≠ k → calls i = 0) ∨ ∑ i, calls i ≤ ns.length := by
  refine ⟨?_, removersSound_of_guarded h hc⟩
  intro hsound
  by_contra hnot
  simp only [not_or, not_exists, not_forall, not_le] at hnot
  obtain ⟨hne, hmany, hmore⟩ := hnot
  obtain ⟨i, _, hi⟩ : ∃ i ∈ Finset.univ, calls i ≠ 0 :=
    Finset.exists_ne_zero_of_sum_ne_zero (by omega)
  obtain ⟨j, hji, hj⟩ := hmany i
  obtain ⟨t, act, hreach, hfault⟩ := exists_fault (s := removersStart l calls) hji h hc hne rfl
    (Nat.pos_of_ne_zero hi) (Nat.pos_of_ne_zero hj) hmore
  exact (hsound t hreach).1 act hfault

/-- A list with one element, as `llist_insert_back` makes it. -/
def singleton (d : α) : Llist α := ⟨1, some 0, none, Heap.empty.alloc ⟨d, none⟩⟩

theorem llistInsertBack_llistCreate (d : α) :
    llistInsertBack llistCreate (some d) true = some (singleton d) := rfl

/-- A list with three elements, as `llist_insert_back` makes it. -/
def threeElements : Option (Llist ℕ) := do
  let l ← llistInsertBack llistCreate (some 7) true
  let l ← llistInsertBack l (some 8) true
  llistInsertBack l (some 9) true

theorem nodes_threeElements {l : Llist ℕ} (h : threeElements = some l) :
    Nodes l [(0, 7), (1, 8), (2, 9)] := by
  cases h
  exact ⟨⟨rfl, some 1, rfl, rfl, some 2, rfl, rfl, none, rfl, rfl⟩, rfl⟩

/-- Three elements: three threads with a call each are safe, two with two each are not. -/
theorem removers_sound_iff_three :
    ∃ l, threeElements = some l ∧ RemoversSound l [7, 8, 9] (fun _ : Fin 3 => 1) ∧
      ¬ RemoversSound l [7, 8, 9] (fun _ : Fin 2 => 2) :=
  ⟨_, rfl,
    (removers_sound_iff (nodes_threeElements rfl) (by decide)).mpr (Or.inr (Or.inr (by decide))),
    mt (removers_sound_iff (nodes_threeElements rfl) (by decide)).mp (by decide)⟩

/-- Two threads, one element: both pass the test, and the second removal reads
`temp->next` through NULL. -/
theorem removers_unsound : ¬RemoversSound (singleton 7) [7] (fun _ : Fin 2 => 1) := by
  intro h
  have hrun : Run removerStep (removersStart (singleton 7) fun _ : Fin 2 => 1)
    [.test 0, .test 1, .remove 0] _ := run_of_exec rfl
  exact (h _ ⟨_, hrun⟩).1 (.remove 1) rfl

end LinkedListLib
