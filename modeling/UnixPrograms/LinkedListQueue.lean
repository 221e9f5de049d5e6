/-
Threads that enqueue on one list while one thread dequeues from it.

`llist_enqueue` allocates its node before it takes the mutex, so several
producers can be between the two with a node each; `llist_dequeue` tests
`is_llist_empty` before it takes the mutex.  A producer has data left to pass,
the consumer calls as often as it likes.  The actions are

* `create` — `create_node`, with the answer of `calloc`;
* `link` — the mutex-protected section of `llist_enqueue`;
* `test`, `remove`, `finish` — the three parts of `llist_dequeue`.

`received_in_order` says that with one consumer every interleaving is a queue:
what `sent` records, in the order of the locked sections, is what the consumer
received, what it has in hand and what is in the list.
-/
import UnixPrograms.LinkedListRemovers

namespace LinkedListLib

open Memory Interleaving

variable {α : Type} {P : ℕ}

/-- A producer: `data` and `new_node` of the call it is in, between
`create_node` and the mutex, and the data of its calls to come (NULL is `none`). -/
structure Producer (α : Type) where
  created : Option (α × ℕ)
  todo : List (Option α)

/-- The list, the threads, the answers of `llist_dequeue`, and a record of the
data linked so far and of who linked them. -/
structure Queue (P : ℕ) (α : Type) where
  list : Llist α
  producer : Fin P → Producer α
  consumer : RemoverPc
  answers : List (Option α)
  sent : List (Fin P × α)

/-- The actions of the producers, and those of the consumer. -/
inductive QueueAction (P : ℕ) where
  | create (i : Fin P) (calloc : Bool)
  | link (i : Fin P)
  | test
  | remove
  | finish

/-- One action of `llist_enqueue` or of `llist_dequeue`. -/
def queueStep (s : Queue P α) : QueueAction P → Outcome (Queue P α)
  | .create i calloc =>
    match s.producer i with
    | ⟨none, data :: todo⟩ =>
      match data, createNode s.list.heap data calloc with
      | some d, (some newNode, heap) =>
        .next { s with
          list := { s.list with heap },
          producer := Function.update s.producer i ⟨some (d, newNode), todo⟩ }
      -- NULL data, or no memory: the call returns without a word
      | _, _ => .next { s with producer := Function.update s.producer i ⟨none, todo⟩ }
    | _ => .blocked
  | .link i =>
    match s.producer i with
    | ⟨some (d, newNode), todo⟩ =>
      match linkTail s.list newNode with
      | none => .fault
      | some list =>
        .next { s with
          list, producer := Function.update s.producer i ⟨none, todo⟩,
          sent := s.sent ++ [(i, d)] }
    | _ => .blocked
  | .test =>
    match s.consumer with
    | .idle =>
      if isLlistEmpty s.list ≠ 0 then .next { s with answers := s.answers ++ [none] }
      else .next { s with consumer := .passed }
    | _ => .blocked
  | .remove =>
    match s.consumer with
    | .passed =>
      match unlinkFront s.list with
      | none => .fault
      | some (temp, list) => .next { s with list, consumer := .unlinked temp }
    | _ => .blocked
  | .finish =>
    match s.consumer with
    | .unlinked temp =>
      match releaseNode s.list temp with
      | none => .fault
      | some (data, list) =>
        .next { s with list, consumer := .idle, answers := s.answers ++ [some data] }
    | _ => .blocked

/-- A list that `llist_create` returned, before the first call. -/
def queueStart (work : Fin P → List (Option α)) : Queue P α :=
  ⟨llistCreate, fun i => ⟨none, work i⟩, .idle, [], []⟩

/-- The data linked so far, in the order of the locked sections. -/
def sentData (s : Queue P α) : List α := s.sent.map Prod.snd

/-- The data that producer `i` linked. -/
def sentBy (sent : List (Fin P × α)) (i : Fin P) : List α :=
  (sent.filter fun m => m.1 = i).map Prod.snd

/-- The data that the consumer has got. -/
def received (s : Queue P α) : List α := s.answers.filterMap id

/-- The node a consumer has unlinked but not freed. -/
def holding : RemoverPc → Option ℕ
  | .unlinked temp => some temp
  | _ => none

/-- The data of that node. -/
def inHand (heap : Heap (Node α)) (c : RemoverPc) : List α :=
  (heap.load (holding c)).toList.map Node.data

/-- The data a producer is about to link, and those it has yet to pass. -/
def Producer.plan (p : Producer α) : List α :=
  (p.created.map Prod.fst).toList ++ p.todo.filterMap id

/-- All data of producer `i`, in its own order. -/
def planned (s : Queue P α) (i : Fin P) : List α := sentBy s.sent i ++ (s.producer i).plan

/-! ### What one action does -/

variable {s t : Queue P α} {i : Fin P} {d : α} {a temp : ℕ} {todo : List (Option α)}

theorem enqueue_create (hi : s.producer i = ⟨none, some d :: todo⟩) :
    queueStep s (.create i true) = .next { s with
      list := withNode s.list d,
      producer := Function.update s.producer i ⟨some (d, s.list.heap.fresh), todo⟩ } := by
  simp only [queueStep, hi]
  rfl

theorem enqueue_nothing {data : Option α} {calloc : Bool}
    (hi : s.producer i = ⟨none, data :: todo⟩) (h : data = none ∨ calloc = false) :
    queueStep s (.create i calloc) = .next { s with
      producer := Function.update s.producer i ⟨none, todo⟩ } := by
  simp only [queueStep, hi]
  rcases h with rfl | rfl
  · rfl
  · cases data <;> rfl

theorem enqueue_link {list : Llist α} (hi : s.producer i = ⟨some (d, a), todo⟩)
    (hl : linkTail s.list a = some list) :
    queueStep s (.link i) = .next { s with
      list, producer := Function.update s.producer i ⟨none, todo⟩,
      sent := s.sent ++ [(i, d)] } := by
  simp only [queueStep, hi, hl]

theorem dequeue_empty (hc : s.consumer = .idle) (he : isLlistEmpty s.list ≠ 0) :
    queueStep s .test = .next { s with answers := s.answers ++ [none] } := by
  simp only [queueStep, hc]
  exact if_pos he

theorem dequeue_pass (hc : s.consumer = .idle) (he : isLlistEmpty s.list = 0) :
    queueStep s .test = .next { s with consumer := .passed } := by
  simp only [queueStep, hc]
  exact if_neg (not_not.mpr he)

theorem dequeue_remove {list : Llist α} (hc : s.consumer = .passed)
    (hu : unlinkFront s.list = some (temp, list)) :
    queueStep s .remove = .next { s with list, consumer := .unlinked temp } := by
  simp only [queueStep, hc, hu]

theorem dequeue_finish {list : Llist α} (hc : s.consumer = .unlinked temp)
    (hr : releaseNode s.list temp = some (d, list)) :
    queueStep s .finish = .next
      { s with list, consumer := .idle, answers := s.answers ++ [some d] } := by
  simp only [queueStep, hc, hr]

/-- Where a thread must be for its action not to be blocked. -/
theorem queueStep_ready {act : QueueAction P} (h : queueStep s act ≠ .blocked) :
    (∃ i calloc data todo, act = .create i calloc ∧ s.producer i = ⟨none, data :: todo⟩) ∨
    (∃ i d a todo, act = .link i ∧ s.producer i = ⟨some (d, a), todo⟩) ∨
    (act = .test ∧ s.consumer = .idle) ∨
    (act = .remove ∧ s.consumer = .passed) ∨
    (∃ temp, act = .finish ∧ s.consumer = .unlinked temp) := by
  cases act with
  | create i calloc =>
    rcases hi : s.producer i with ⟨_ | c, _ | ⟨data, todo⟩⟩
    · exact absurd (by simp only [queueStep, hi]) h
    · exact Or.inl ⟨i, calloc, data, todo, rfl, hi⟩
    · exact absurd (by simp only [queueStep, hi]) h
    · exact absurd (by simp only [queueStep, hi]) h
  | link i =>
    rcases hi : s.producer i with ⟨_ | ⟨d, a⟩, todo⟩
    · exact absurd (by simp only [queueStep, hi]) h
    · exact Or.inr (Or.inl ⟨i, d, a, todo, rfl, hi⟩)
  | test =>
    cases hc : s.consumer with
    | idle => exact Or.inr (Or.inr (Or.inl ⟨rfl, rfl⟩))
    | passed | unlinked temp => exact absurd (by simp only [queueStep, hc]) h
  | remove =>
    cases hc : s.consumer with
    | passed => exact Or.inr (Or.inr (Or.inr (Or.inl ⟨rfl, rfl⟩)))
    | idle | unlinked temp => exact absurd (by simp only [queueStep, hc]) h
  | finish =>
    cases hc : s.consumer with
    | unlinked temp => exact Or.inr (Or.inr (Or.inr (Or.inr ⟨temp, rfl, rfl⟩)))
    | idle | passed => exact absurd (by simp only [queueStep, hc]) h

/-! ### Linking a node that is already allocated -/

/-- The locked section of `llist_enqueue`, on a node `b` outside the list, when
`tail` is the last node. -/
theorem linkTail_block {l : Llist α} {ns : List (ℕ × α)} {b : ℕ} (h : Nodes l ns)
    (htail : ∀ n ∈ ns.getLast?, l.tail = some n.1) (hb : l.heap.cell b = some ⟨d, none⟩)
    (hout : ∀ n ∈ ns, n.1 ≠ b) (hc : l.count + 1 < 2 ^ 64) :
    ∃ l', linkTail l b = some l' ∧ Nodes l' (ns ++ [(b, d)]) ∧ l'.tail = some b ∧
      ∀ c, (∀ n ∈ ns, n.1 ≠ c) → l'.heap.cell c = l.heap.cell c := by
  rcases List.eq_nil_or_concat' ns with rfl | ⟨ms, n, rfl⟩
  · have hhead : l.head = none := h.chain
    refine ⟨{ l with head := some b, tail := some b, count := increment l.count }, ?_,
      ⟨⟨rfl, none, hb, rfl⟩, ?_⟩, rfl, fun c _ => rfl⟩
    · rw [linkTail, hhead]
    · show increment l.count = 1
      rw [increment_of_lt hc, h.count, List.length_nil]
  · obtain ⟨heap, hmod, hchain, _, hcell⟩ := Chain.link_block h.chain hb hout
    have ht : l.tail = some n.1 := htail n (by simp)
    refine ⟨{ l with heap, tail := some b, count := increment l.count }, ?_,
      ⟨hchain, ?_⟩, rfl, fun c hcout => hcell c (hcout n (by simp)).symm⟩
    · cases hhead : l.head with
      | none => exact absurd (h.head_eq_none.mp hhead) (by simp)
      | some first =>
        rw [linkTail, hhead, ht]
        show (l.heap.modify (some n.1) _).bind _ = _
        rw [hmod, Option.bind_some]
    · show increment l.count = _
      rw [increment_of_lt hc, h.count]
      simp only [List.length_append, List.length_singleton]

/-! ### The account every interleaving keeps -/

/-- Who owns which node: the producers (`some i`) and the consumer (`none`). -/
def owner (f : Fin P → Producer α) (c : RemoverPc) : Option (Fin P) → Option ℕ
  | none => holding c
  | some i => (f i).created.map Prod.snd

/-- The calls of `llist_enqueue` a producer has not returned from. -/
def openSends (p : Producer α) : ℕ := p.todo.length + if p.created = none then 0 else 1

@[simp] theorem openSends_outside (todo : List (Option α)) :
    openSends ⟨none, todo⟩ = todo.length := rfl

@[simp] theorem openSends_created (c : α × ℕ) (todo : List (Option α)) :
    openSends ⟨some c, todo⟩ = todo.length + 1 := rfl

/-- Who has created a node, after a move of producer `i`. -/
theorem created_update {f : Fin P → Producer α} {p : Producer α} {j : Fin P}
    (hj : (Function.update f i p j).created = some (d, a)) :
    p.created = some (d, a) ∨ (j ≠ i ∧ (f j).created = some (d, a)) := by
  by_cases hji : j = i
  · rw [hji, Function.update_self] at hj
    exact Or.inl hj
  · rw [Function.update_of_ne hji] at hj
    exact Or.inr ⟨hji, hj⟩

theorem owner_producer (f : Fin P → Producer α) (c : RemoverPc) (i : Fin P) (p : Producer α) :
    owner (Function.update f i p) c =
      Function.update (owner f c) (some i) (p.created.map Prod.snd) := by
  funext o
  cases o with
  | none => rfl
  | some j =>
    by_cases hji : j = i
    · rw [hji, Function.update_self, owner, Function.update_self]
    · rw [Function.update_of_ne (fun h => hji (Option.some.inj h)), owner, owner,
        Function.update_of_ne hji]

theorem owner_consumer (f : Fin P → Producer α) (c c' : RemoverPc) :
    owner f c' = Function.update (owner f c) none (holding c') := by
  funext o
  cases o with
  | none => rw [Function.update_self, owner]
  | some j => rw [Function.update_of_ne (by simp), owner, owner]

/-- A change of the heap away from the consumer's node leaves its data. -/
theorem inHand_frame {h h' : Heap (Node α)} {c : RemoverPc}
    (hsame : ∀ b, holding c = some b → h'.cell b = h.cell b) : inHand h' c = inHand h c := by
  rw [inHand, inHand]
  cases hc : holding c with
  | none => rfl
  | some b => rw [Heap.load_some, Heap.load_some, hsame b hc]

/-- As long as no action faults: `tail` is the last node, every thread owns the
node it works on, and the data linked so far are those the consumer received,
the one it has in hand and those in the list, in this order. -/
structure Flow (bound : ℕ) (s : Queue P α) (ns : List (ℕ × α)) : Prop where
  nodes : Nodes s.list ns
  tail : ∀ n ∈ ns.getLast?, s.list.tail = some n.1
  owned : Owned s.list.heap (owner s.producer s.consumer) ns
  created : ∀ i d a, (s.producer i).created = some (d, a) →
    s.list.heap.cell a = some ⟨d, none⟩
  order : sentData s = received s ++ inHand s.list.heap s.consumer ++ ns.map Prod.snd
  passed : s.consumer = .passed → ns ≠ []
  room : s.sent.length + total openSends s.producer ≤ bound

variable {bound : ℕ} {ns : List (ℕ × α)}

theorem Flow.start (work : Fin P → List (Option α)) :
    Flow (∑ i, (work i).length) (queueStart work) [] where
  nodes := nodes_llistCreate
  tail n hn := absurd hn (by simp)
  owned := Owned.nobody fun o => by cases o <;> rfl
  created i d a hi := absurd hi (by simp [queueStart])
  order := rfl
  passed hc := absurd hc (by simp [queueStart])
  room := by simp [queueStart, total, openSends]

/-- What is in the list has been sent and not received. -/
theorem Flow.length_le (h : Flow bound s ns) : ns.length ≤ s.sent.length := by
  have hlen := congrArg List.length h.order
  simp only [sentData, List.length_append, List.length_map] at hlen
  omega

/-- A call passes no data, or no memory is left for it. -/
theorem Flow.create_nothing {data : Option α} (h : Flow bound s ns)
    (hi : s.producer i = ⟨none, data :: todo⟩) :
    Flow bound { s with producer := Function.update s.producer i ⟨none, todo⟩ } ns where
  nodes := h.nodes
  tail := h.tail
  owned := by
    have hnone : owner s.producer s.consumer (some i) = none := by
      rw [owner, hi]
      rfl
    show Owned _ (owner (Function.update s.producer i _) s.consumer) ns
    rw [owner_producer]
    show Owned _ (Function.update _ (some i) none) ns
    rw [← hnone, Function.update_eq_self]
    exact h.owned
  created j e b hj := by
    rcases created_update hj with hnew | ⟨_, hold⟩
    · exact absurd hnew (by simp)
    · exact h.created j e b hold
  order := h.order
  passed := h.passed
  room := by
    have hmove := total_update openSends s.producer i ⟨none, todo⟩
    have hroom := h.room
    rw [hi, openSends_outside, openSends_outside, List.length_cons] at hmove
    show s.sent.length + total openSends (Function.update s.producer i _) ≤ bound
    omega

/-- `create_node` allocates a block that nobody knows but its producer. -/
theorem Flow.create (h : Flow bound s ns) (hi : s.producer i = ⟨none, some d :: todo⟩) :
    Flow bound { s with
      list := withNode s.list d,
      producer := Function.update s.producer i ⟨some (d, s.list.heap.fresh), todo⟩ } ns where
  nodes := ⟨Seg.alloc h.nodes.chain _, h.nodes.count⟩
  tail := h.tail
  owned := by
    show Owned (s.list.heap.alloc _) (owner (Function.update s.producer i _) s.consumer) ns
    rw [owner_producer]
    exact h.owned.adopt h.nodes.chain _ (some i)
  created j e b hj := by
    show (s.list.heap.alloc _).cell b = _
    rcases created_update hj with hnew | ⟨_, hold⟩
    · obtain ⟨rfl, rfl⟩ := Prod.mk.inj (Option.some.inj hnew)
      exact Heap.alloc_cell_fresh _ _
    · have hcell := h.created j e b hold
      rw [Heap.alloc_cell_of_lt _ _ (Heap.lt_fresh hcell), hcell]
  order := by
    rw [show inHand (withNode s.list d).heap s.consumer = inHand s.list.heap s.consumer from
      inHand_frame fun b hb => by
        obtain ⟨n, hn⟩ := h.owned.live none b hb
        exact Heap.alloc_cell_of_lt _ _ (Heap.lt_fresh hn)]
    exact h.order
  passed := h.passed
  room := by
    have hmove := total_update openSends s.producer i ⟨some (d, s.list.heap.fresh), todo⟩
    have hroom := h.room
    rw [hi, openSends_outside, openSends_created, List.length_cons] at hmove
    show s.sent.length + total openSends (Function.update s.producer i _) ≤ bound
    omega

/-- The locked section of `llist_enqueue` puts the node last, and its data are
the last ones sent. -/
theorem Flow.link (h : Flow bound s ns) (hbound : bound < 2 ^ 64)
    (hi : s.producer i = ⟨some (d, a), todo⟩) :
    ∃ list, linkTail s.list a = some list ∧
      Flow bound { s with
        list, producer := Function.update s.producer i ⟨none, todo⟩,
        sent := s.sent ++ [(i, d)] } (ns ++ [(a, d)]) := by
  have hroom := h.room
  have hmove := total_update openSends s.producer i ⟨none, todo⟩
  rw [hi, openSends_outside, openSends_created] at hmove
  have hlen := h.length_le
  have hcount := h.nodes.count
  have hown : owner s.producer s.consumer (some i) = some a := by
    rw [owner, hi]
    rfl
  have hcell : s.list.heap.cell a = some ⟨d, none⟩ := h.created i d a (by rw [hi])
  obtain ⟨list, hlink, hnodes, htail, hframe⟩ :=
    linkTail_block h.nodes h.tail hcell (h.owned.out _ a hown) (by omega)
  refine ⟨list, hlink, hnodes, ?_, ?_, ?_, ?_, ?_, ?_⟩
  · intro n hn
    rw [List.getLast?_append_of_ne_nil _ (List.cons_ne_nil _ _)] at hn
    obtain rfl := Option.some.inj hn
    exact htail
  · show Owned list.heap (owner (Function.update s.producer i _) s.consumer) _
    rw [owner_producer]
    exact h.owned.give hown d hframe
  · intro j e b hj
    rcases created_update hj with hnew | ⟨_, hold⟩
    · exact absurd hnew (by simp)
    · -- another node that waits for the mutex is not in the list
      have hownj : owner s.producer s.consumer (some j) = some b := by
        rw [owner, hold]
        rfl
      exact (hframe b (h.owned.out _ b hownj)).trans (h.created j e b hold)
  · show (s.sent ++ [(i, d)]).map Prod.snd =
      received s ++ inHand list.heap s.consumer ++ (ns ++ [(a, d)]).map Prod.snd
    rw [inHand_frame fun b hb => hframe b (h.owned.out none b hb), List.map_append,
      List.map_append, ← List.append_assoc]
    exact congrArg (· ++ [d]) h.order
  · intro _
    simp
  · show (s.sent ++ [(i, d)]).length + total openSends (Function.update s.producer i _) ≤ bound
    rw [List.length_append, List.length_singleton]
    omega

/-- On an empty list the consumer gets NULL: there is nothing it has not received. -/
theorem Flow.test_empty (h : Flow bound s ns) (hc : s.consumer = .idle)
    (he : isLlistEmpty s.list ≠ 0) :
    Flow bound { s with answers := s.answers ++ [none] } ns ∧ sentData s = received s := by
  have hns : ns = [] := by
    by_contra hne
    exact he (h.nodes.isLlistEmpty_eq_zero.mpr hne)
  refine ⟨⟨h.nodes, h.tail, h.owned, h.created, ?_, h.passed, h.room⟩, ?_⟩
  · show sentData s = (s.answers ++ [none]).filterMap id ++ _ ++ _
    rw [List.filterMap_append]
    simpa [received] using h.order
  · have horder := h.order
    rw [hns, hc] at horder
    simpa [inHand, holding] using horder

/-- On any other list it goes on to the mutex. -/
theorem Flow.test_pass (h : Flow bound s ns) (hc : s.consumer = .idle)
    (he : isLlistEmpty s.list = 0) : Flow bound { s with consumer := .passed } ns where
  nodes := h.nodes
  tail := h.tail
  owned := by
    have howned := h.owned
    rw [hc] at howned
    show Owned _ (owner s.producer .passed) ns
    have hsame : owner s.producer .passed = owner s.producer .idle := by
      funext o
      cases o <;> rfl
    rw [hsame]
    exact howned
  created := h.created
  order := by
    have horder := h.order
    rw [hc] at horder
    exact horder
  passed _ := h.nodes.isLlistEmpty_eq_zero.mp he
  room := h.room

/-- Nobody else takes nodes away, so the locked section finds one. -/
theorem Flow.remove (h : Flow bound s ns) (hbound : bound < 2 ^ 64)
    (hc : s.consumer = .passed) :
    ∃ temp list ms, unlinkFront s.list = some (temp, list) ∧
      Flow bound { s with list, consumer := .unlinked temp } ms := by
  have hlen := h.length_le
  have hcount := h.nodes.count
  have hroom := h.room
  obtain ⟨n, ms, rfl⟩ := List.exists_cons_of_ne_nil (h.passed hc)
  obtain ⟨list, r, hunlink, hrest, hheap, htail, hcell⟩ := unlinkFront_spec h.nodes (by omega)
  refine ⟨n.1, list, ms, hunlink, hrest, ?_, ?_, ?_, ?_, ?_, h.room⟩
  · intro m hm
    refine htail.trans (h.tail m ?_)
    cases ms with
    | nil => exact absurd hm (by simp)
    | cons u us => rwa [List.getLast?_cons_cons]
  · show Owned list.heap (owner s.producer (.unlinked n.1)) ms
    rw [hheap, owner_consumer s.producer s.consumer]
    exact h.owned.take h.nodes.chain none
  · intro j e b hj
    rw [hheap]
    exact h.created j e b hj
  · have horder := h.order
    rw [hc] at horder
    show sentData s = received s ++ inHand list.heap (.unlinked n.1) ++ ms.map Prod.snd
    rw [horder, hheap, inHand, inHand, show holding (.unlinked n.1) = some n.1 from rfl,
      show holding .passed = none from rfl, Heap.load_some, hcell]
    simp
  · intro hpassed
    exact absurd hpassed (by simp)

/-- The consumer frees its node and returns its data. -/
theorem Flow.finish (h : Flow bound s ns) (hc : s.consumer = .unlinked temp) :
    ∃ list d, releaseNode s.list temp = some (d, list) ∧
      Flow bound { s with list, consumer := .idle, answers := s.answers ++ [some d] } ns := by
  have hown : owner s.producer s.consumer none = some temp := by
    rw [owner, hc]
    rfl
  obtain ⟨⟨d, r⟩, hcell⟩ := h.owned.live none temp hown
  obtain ⟨heap, hrelease, _, hfreed⟩ := releaseNode_spec hcell
  refine ⟨_, d, hrelease,
    ⟨Chain.of_notMem h.nodes.chain (h.owned.out none temp hown) hfreed, h.nodes.count⟩,
    h.tail, ?_, ?_, ?_, ?_, h.room⟩
  · show Owned heap (owner s.producer .idle) ns
    rw [owner_consumer s.producer s.consumer]
    exact h.owned.release hown hfreed
  · intro j e b hj
    have hownj : owner s.producer s.consumer (some j) = some b := by
      rw [owner, hj]
      rfl
    -- the node of a producer is not the one that is freed
    have hne : b ≠ temp := by
      rintro rfl
      exact absurd (h.owned.apart _ _ b hownj hown) (by simp)
    show heap.cell b = _
    rw [hfreed, if_neg hne]
    exact h.created j e b hj
  · have horder := h.order
    rw [hc, inHand, holding, Heap.load_some, hcell] at horder
    show sentData s = (s.answers ++ [some d]).filterMap id ++ [] ++ ns.map Prod.snd
    rw [List.filterMap_append, List.append_nil, horder]
    rfl
  · intro hpassed
    exact absurd hpassed (by simp)

/-- **The step lemma.**  No action faults, and the account is kept. -/
theorem Flow.step (h : Flow bound s ns) (hbound : bound < 2 ^ 64) {act : QueueAction P}
    (hready : queueStep s act ≠ .blocked) :
    ∃ t ms, queueStep s act = .next t ∧ Flow bound t ms := by
  rcases queueStep_ready hready with ⟨i, calloc, data, todo, rfl, hi⟩ |
      ⟨i, d, a, todo, rfl, hi⟩ | ⟨rfl, hc⟩ | ⟨rfl, hc⟩ | ⟨temp, rfl, hc⟩
  · rcases data with _ | d
    · exact ⟨_, ns, enqueue_nothing hi (Or.inl rfl), h.create_nothing hi⟩
    · cases calloc with
      | false => exact ⟨_, ns, enqueue_nothing hi (Or.inr rfl), h.create_nothing hi⟩
      | true => exact ⟨_, ns, enqueue_create hi, h.create hi⟩
  · obtain ⟨list, hlink, hflow⟩ := h.link hbound hi
    exact ⟨_, _, enqueue_link hi hlink, hflow⟩
  · by_cases he : isLlistEmpty s.list = 0
    · exact ⟨_, ns, dequeue_pass hc he, h.test_pass hc he⟩
    · exact ⟨_, ns, dequeue_empty hc he, (h.test_empty hc he).1⟩
  · obtain ⟨temp, list, ms, hunlink, hflow⟩ := h.remove hbound hc
    exact ⟨_, ms, dequeue_remove hc hunlink, hflow⟩
  · obtain ⟨list, d, hrelease, hflow⟩ := h.finish hc
    exact ⟨_, ns, dequeue_finish hc hrelease, hflow⟩

theorem flow_step (hbound : bound < 2 ^ 64) {act : QueueAction P} (h : ∃ ns, Flow bound s ns)
    (hstep : queueStep s act = .next t) : ∃ ms, Flow bound t ms := by
  obtain ⟨ns, hflow⟩ := h
  obtain ⟨t', ms, hnext, hflow'⟩ := hflow.step hbound (by rw [hstep]; simp)
  obtain rfl := Outcome.next.inj (hstep.symm.trans hnext)
  exact ⟨ms, hflow'⟩

/-- **The account of every interleaving.** -/
theorem flow_of_run {work : Fin P → List (Option α)} {acts : List (QueueAction P)}
    (hwork : ∑ i, (work i).length < 2 ^ 64) (hrun : Run queueStep (queueStart work) acts s) :
    ∃ ns, Flow (∑ i, (work i).length) s ns := by
  exact hrun.invariant_on (P := fun _ => True)
    (fun s => ∃ ns, Flow (∑ i, (work i).length) s ns)
    (fun _ _ _ _ hflow hstep => flow_step hwork hflow hstep) (fun _ _ => trivial)
    ⟨[], Flow.start work⟩

/-! ### The order of one producer's data -/

theorem sentBy_append (sent : List (Fin P × α)) (i j : Fin P) (d : α) :
    sentBy (sent ++ [(i, d)]) j = sentBy sent j ++ if i = j then [d] else [] := by
  rw [sentBy, List.filter_append, List.map_append, List.filter_singleton]
  by_cases hij : i = j <;> simp [sentBy, hij]

/-- The plan of producer `j` after a move of producer `i`. -/
theorem planned_update {p : Producer α} (ht : t.producer = Function.update s.producer i p)
    (j : Fin P) :
    planned t j = sentBy t.sent j ++ if j = i then p.plan else (s.producer j).plan := by
  rw [planned, ht, Function.update_apply]
  split <;> rfl

/-- A call that returns without a word drops its datum, if it has one. -/
theorem planned_nothing {data : Option α} {calloc : Bool}
    (hi : s.producer i = ⟨none, data :: todo⟩) (h : data = none ∨ calloc = false)
    (j : Fin P) :
    let t : Queue P α := { s with producer := Function.update s.producer i ⟨none, todo⟩ }
    (planned t j).Sublist (planned s j) ∧
      ((i, calloc) ≠ (j, false) → planned t j = planned s j) := by
  intro t
  rw [planned_update (t := t) rfl, show t.sent = s.sent from rfl]
  by_cases hji : j = i
  · rw [if_pos hji, planned, hji, hi]
    rcases data with _ | d
    · exact ⟨List.Sublist.refl _, fun _ => rfl⟩
    · refine ⟨List.Sublist.append_left (List.sublist_cons_self d _) _, fun hne => ?_⟩
      rcases h with hnone | hfalse
      · exact absurd hnone (by simp)
      · exact absurd (by rw [hfalse]) hne
  · rw [if_neg hji]
    exact ⟨List.Sublist.refl _, fun _ => rfl⟩

theorem planned_create (hi : s.producer i = ⟨none, some d :: todo⟩) (list : Llist α)
    (newNode : ℕ) (j : Fin P) :
    planned { s with
      list, producer := Function.update s.producer i ⟨some (d, newNode), todo⟩ } j =
        planned s j := by
  rw [planned_update rfl, planned]
  by_cases hji : j = i
  · rw [if_pos hji, hji, hi]
    rfl
  · rw [if_neg hji]

/-- The datum that is linked moves from the plan to what was sent. -/
theorem planned_link (hi : s.producer i = ⟨some (d, a), todo⟩) (list : Llist α) (j : Fin P) :
    planned { s with
      list, producer := Function.update s.producer i ⟨none, todo⟩,
      sent := s.sent ++ [(i, d)] } j = planned s j := by
  rw [planned_update rfl, planned, sentBy_append]
  by_cases hji : j = i
  · rw [if_pos hji, if_pos hji.symm, hji, hi, List.append_assoc]
    rfl
  · rw [if_neg hji, if_neg (Ne.symm hji), List.append_nil]

/-- An action keeps what every producer has sent and plans to send; only a
failed allocation drops a datum. -/
theorem Flow.planned_step (h : Flow bound s ns) (hbound : bound < 2 ^ 64) {act : QueueAction P}
    (hstep : queueStep s act = .next t) (j : Fin P) :
    (planned t j).Sublist (planned s j) ∧
      (act ≠ .create j false → planned t j = planned s j) := by
  have hsame : planned t j = planned s j → (planned t j).Sublist (planned s j) ∧
      (act ≠ .create j false → planned t j = planned s j) :=
    fun heq => ⟨heq ▸ List.Sublist.refl _, fun _ => heq⟩
  have hready : queueStep s act ≠ .blocked := by
    rw [hstep]
    simp
  rcases queueStep_ready hready with ⟨i, calloc, data, todo, rfl, hi⟩ |
      ⟨i, d, a, todo, rfl, hi⟩ | ⟨rfl, hc⟩ | ⟨rfl, hc⟩ | ⟨temp, rfl, hc⟩
  · by_cases hfail : data = none ∨ calloc = false
    · obtain rfl := Outcome.next.inj ((enqueue_nothing hi hfail).symm.trans hstep)
      obtain ⟨hsub, heq⟩ := planned_nothing hi hfail j
      refine ⟨hsub, fun hne => heq fun hpair => hne ?_⟩
      obtain ⟨rfl, rfl⟩ := Prod.mk.inj hpair
      rfl
    · obtain ⟨hdata, hcalloc⟩ := not_or.mp hfail
      obtain ⟨d, rfl⟩ := Option.ne_none_iff_exists'.mp hdata
      obtain rfl : calloc = true := by simpa using hcalloc
      obtain rfl := Outcome.next.inj ((enqueue_create hi).symm.trans hstep)
      exact hsame (planned_create hi _ _ j)
  · obtain ⟨list, hlink, _⟩ := h.link hbound hi
    obtain rfl := Outcome.next.inj ((enqueue_link hi hlink).symm.trans hstep)
    exact hsame (planned_link hi _ j)
  · by_cases he : isLlistEmpty s.list = 0
    · obtain rfl := Outcome.next.inj ((dequeue_pass hc he).symm.trans hstep)
      exact hsame rfl
    · obtain rfl := Outcome.next.inj ((dequeue_empty hc he).symm.trans hstep)
      exact hsame rfl
  · obtain ⟨temp, list, ms, hunlink, _⟩ := h.remove hbound hc
    obtain rfl := Outcome.next.inj ((dequeue_remove hc hunlink).symm.trans hstep)
    exact hsame rfl
  · obtain ⟨list, d, hrelease, _⟩ := h.finish hc
    obtain rfl := Outcome.next.inj ((dequeue_finish hc hrelease).symm.trans hstep)
    exact hsame rfl

/-- **The plans over a run.** -/
theorem planned_of_run {work : Fin P → List (Option α)} {acts : List (QueueAction P)}
    (hwork : ∑ i, (work i).length < 2 ^ 64) (hrun : Run queueStep (queueStart work) acts s)
    (i : Fin P) :
    (planned s i).Sublist ((work i).filterMap id) ∧
      (.create i false ∉ acts → planned s i = (work i).filterMap id) := by
  constructor
  · refine (hrun.invariant_on (P := fun _ => True) (fun s =>
      (∃ ns, Flow (∑ i, (work i).length) s ns) ∧
        (planned s i).Sublist ((work i).filterMap id))
      ?_ (fun _ _ => trivial) ⟨⟨[], Flow.start work⟩, List.Sublist.refl _⟩).2
    rintro s act t - ⟨⟨ns, hflow⟩, hsub⟩ hstep
    have hplan := (hflow.planned_step hwork hstep i).1
    exact ⟨flow_step hwork ⟨ns, hflow⟩ hstep, hplan.trans hsub⟩
  · intro hnone
    refine (hrun.invariant_on (P := fun act => act ≠ .create i false) (fun s =>
      (∃ ns, Flow (∑ i, (work i).length) s ns) ∧ planned s i = (work i).filterMap id)
      ?_ (fun act hact heq => hnone (heq ▸ hact)) ⟨⟨[], Flow.start work⟩, rfl⟩).2
    rintro s act t hne ⟨⟨ns, hflow⟩, heq⟩ hstep
    have hplan := (hflow.planned_step hwork hstep i).2 hne
    exact ⟨flow_step hwork ⟨ns, hflow⟩ hstep, hplan.trans heq⟩

/-- **One consumer is safe.**  However many threads enqueue, and whatever
allocations fail, in every interleaving with one thread that dequeues: no action
faults; the list holds what was linked and not taken, in the order in which it
was linked, and `count` counts it; the consumer receives exactly that order, and
NULL only when it has received all that was linked; what a producer links it
links in its own order, all of it if its allocations succeed. -/
theorem received_in_order {work : Fin P → List (Option α)} {acts : List (QueueAction P)}
    (hwork : ∑ i, (work i).length < 2 ^ 64) (hrun : Run queueStep (queueStart work) acts s) :
    (∀ act, queueStep s act ≠ .fault) ∧
    (∃ xs, (∃ ns, Chain s.list.heap s.list.head ns ∧ ns.map Prod.snd = xs) ∧
      s.list.count = xs.length ∧
      sentData s = received s ++ inHand s.list.heap s.consumer ++ xs) ∧
    (∀ t, queueStep s .test = .next t → t.answers = s.answers ++ [none] →
      received s = sentData s) ∧
    ∀ i, (planned s i).Sublist ((work i).filterMap id) ∧
      (.create i false ∉ acts → planned s i = (work i).filterMap id) := by
  obtain ⟨ns, hflow⟩ := flow_of_run hwork hrun
  refine ⟨?_, ⟨ns.map Prod.snd, ⟨ns, hflow.nodes.chain, rfl⟩, ?_, hflow.order⟩, ?_,
    planned_of_run hwork hrun⟩
  · intro act hfault
    have hready : queueStep s act ≠ .blocked := by
      rw [hfault]
      simp
    obtain ⟨t, _, hnext, _⟩ := hflow.step hwork hready
    exact absurd (hfault.symm.trans hnext) (by simp)
  · rw [hflow.nodes.count, List.length_map]
  · intro t hstep hnull
    have hready : queueStep s .test ≠ .blocked := by
      rw [hstep]
      simp
    rcases queueStep_ready hready with ⟨_, _, _, _, h, _⟩ | ⟨_, _, _, _, h, _⟩ | ⟨_, hc⟩ |
        ⟨h, _⟩ | ⟨_, h, _⟩
    · exact absurd h (by simp)
    · exact absurd h (by simp)
    · by_cases he : isLlistEmpty s.list = 0
      · obtain rfl := Outcome.next.inj ((dequeue_pass hc he).symm.trans hstep)
        exact absurd hnull (by simp)
      · exact (hflow.test_empty hc he).2.symm
    · exact absurd h (by simp)
    · exact absurd h (by simp)

/-- Two producers, both with a node when the first of them links; the consumer
waits for the mutex meanwhile. -/
theorem received_in_order_two :
    ∃ s : Queue 2 ℕ, Run queueStep (queueStart fun i => [some i.val, none, some 7])
        [.create 0 true, .create 1 true, .link 1, .test, .link 0, .remove, .finish] s ∧
      received s = [1] ∧ sentData s = [1, 0] ∧
      planned s 0 = [0, 7] := by
  have hrun : Run queueStep (queueStart fun i : Fin 2 => [some i.val, none, some 7])
    [.create 0 true, .create 1 true, .link 1, .test, .link 0, .remove, .finish] _ := run_of_exec rfl
  have h := received_in_order (by decide) hrun
  exact ⟨_, hrun, rfl, rfl, (h.2.2.2 0).2 (by simp)⟩

end LinkedListLib
