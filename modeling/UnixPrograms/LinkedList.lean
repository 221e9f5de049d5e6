/-
The linked list of `linked_list_lib.c`, used as a list, a stack or a queue.

`llist_t` keeps three views of one list, `head`, `tail` and `count`; the nodes
live in a heap, and a function that follows NULL or a freed node answers `none`.

* `llistInsertFront`, `llistInsertBack`, `llistPush`, `llistEnqueue` — each
  allocates a node and then runs its mutex-protected section (`linkFront`,
  `linkBack`, `linkTail`); `calloc` says whether the allocation succeeds;
* `llistRemoveFront` — the emptiness test, the mutex-protected
  `unlinkFront`, and `releaseNode` after the unlock;
* `llistSize`, `llistPeek`, `llistPeekTail`.

The pointer `llist` itself is not NULL: these are the calls on a list that
`llist_create` returned.  `count` is a `uint64_t` and wraps both ways.
-/
import UnixPrograms.Heap
import UnixPrograms.Machine

namespace LinkedListLib

open Memory

/-- `llist_t`, and the heap with its `llist_node_t` cells. -/
structure Llist (α : Type) where
  count : ℕ
  head : Option ℕ
  tail : Option ℕ
  heap : Heap (Node α)

variable {α : Type}

/-- `++` on a `uint64_t`. -/
def increment (count : ℕ) : ℕ := (count + 1) % 2 ^ 64

/-- `--` on a `uint64_t`: 0 wraps to the largest value. -/
def decrement (count : ℕ) : ℕ := (count + (2 ^ 64 - 1)) % 2 ^ 64

theorem increment_of_lt {c : ℕ} (hc : c + 1 < 2 ^ 64) : increment c = c + 1 :=
  Nat.mod_eq_of_lt hc

theorem decrement_succ {c : ℕ} (hc : c + 1 < 2 ^ 64) : decrement (c + 1) = c := by
  rw [decrement]
  omega

/-- `llist_create`: `calloc` zeroes every field. -/
def llistCreate : Llist α := ⟨0, none, none, Heap.empty⟩

/-- `is_llist_empty`: 0 for a list with a positive count, else 1. -/
def isLlistEmpty (s : Llist α) : ℕ := if s.count > 0 then 0 else 1

/-- `create_node`: NULL for NULL data and when `calloc` fails. -/
def createNode (heap : Heap (Node α)) (data : Option α) (calloc : Bool) :
    Option ℕ × Heap (Node α) :=
  match data, calloc with
  | some d, true => (some heap.fresh, heap.alloc ⟨d, none⟩)
  | _, _ => (none, heap)

/-! ### Insertion -/

/-- The locked section of `llist_insert_front` and of `llist_push`. -/
def linkFront (s : Llist α) (newNode : ℕ) : Option (Llist α) := do
  let heap ← s.heap.modify (some newNode) fun n => { n with next := s.head }
  some { count := increment s.count, head := some newNode,
         tail := if s.tail = none then some newNode else s.tail, heap }

/-- The locked section of `llist_insert_back`: it walks to the last node and
leaves `tail` alone. -/
def linkBack (s : Llist α) (newNode : ℕ) : Option (Llist α) := do
  let (head, heap) ← linkLast s.heap s.head newNode
  some { s with head, heap, count := increment s.count }

/-- The locked section of `llist_enqueue`: it writes through `tail`. -/
def linkTail (s : Llist α) (newNode : ℕ) : Option (Llist α) :=
  match s.head with
  | none =>
    some { s with head := some newNode, tail := some newNode, count := increment s.count }
  -- not empty: `tail` is trusted to be the last node
  | some _ => do
    let heap ← s.heap.modify s.tail fun n => { n with next := some newNode }
    some { s with heap, tail := some newNode, count := increment s.count }

/-- `llist_insert_front`. -/
def llistInsertFront (s : Llist α) (data : Option α) (calloc : Bool) : Option (Llist α) :=
  match data, calloc with
  | some d, true => linkFront { s with heap := s.heap.alloc ⟨d, none⟩ } s.heap.fresh
  | _, _ => some s

/-- `llist_insert_back`. -/
def llistInsertBack (s : Llist α) (data : Option α) (calloc : Bool) : Option (Llist α) :=
  match data, calloc with
  | some d, true => linkBack { s with heap := s.heap.alloc ⟨d, none⟩ } s.heap.fresh
  | _, _ => some s

/-- `llist_push`. -/
def llistPush (s : Llist α) (data : Option α) (calloc : Bool) : Option (Llist α) :=
  match createNode s.heap data calloc with
  | (some newNode, heap) => linkFront { s with heap } newNode
  | (none, _) => some s

/-- `llist_enqueue`. -/
def llistEnqueue (s : Llist α) (data : Option α) (calloc : Bool) : Option (Llist α) :=
  match createNode s.heap data calloc with
  | (some newNode, heap) => linkTail { s with heap } newNode
  | (none, _) => some s

/-! ### Removal -/

/-- The locked section of `llist_remove_front`: `temp`, and the list after it.
`tail` keeps its value, also when `temp` was the last node. -/
def unlinkFront (s : Llist α) : Option (ℕ × Llist α) := do
  let temp ← s.head
  let node ← s.heap.cell temp
  some (temp, { s with head := node.next, count := decrement s.count })

/-- The end of `llist_remove_front`, after the unlock: the data of `temp` is
read and the node freed. -/
def releaseNode (s : Llist α) (temp : ℕ) : Option (α × Llist α) := do
  let node ← s.heap.cell temp
  let heap ← s.heap.free temp
  some (node.data, { s with heap })

/-- `llist_remove_front`: the data removed, or NULL. -/
def llistRemoveFront (s : Llist α) : Option (Option α × Llist α) :=
  -- this test is made before the mutex is taken
  if isLlistEmpty s ≠ 0 then some (none, s)
  else do
    let (temp, s) ← unlinkFront s
    let (data, s) ← releaseNode s temp
    some (some data, s)

/-- `llist_pop`. -/
def llistPop (s : Llist α) : Option (Option α × Llist α) := llistRemoveFront s

/-- `llist_dequeue`. -/
def llistDequeue (s : Llist α) : Option (Option α × Llist α) := llistRemoveFront s

/-! ### Looking at the list -/

/-- `llist_size`. -/
def llistSize (s : Llist α) : ℕ := s.count

/-- `llist_peek`: the outer `none` is a fault, the inner one NULL. -/
def llistPeek (s : Llist α) : Option (Option α) :=
  match s.head with
  | none => some none
  | some first => (s.heap.cell first).map fun n => some n.data

/-- `llist_peek_tail`: the outer `none` is a fault, the inner one NULL. -/
def llistPeekTail (s : Llist α) : Option (Option α) :=
  match s.tail with
  | none => some none
  | some last => (s.heap.cell last).map fun n => some n.data

/-- The last node, as the loop of `llist_insert_back` finds it. -/
def lastNode (s : Llist α) : Option ℕ := s.head.bind (walk s.heap s.heap.fresh)

/-! ### What an insertion does before its locked section -/

/-- Nothing happens without data or without memory. -/
theorem insert_nothing (s : Llist α) {data : Option α} {calloc : Bool}
    (h : data = none ∨ calloc = false) :
    llistInsertFront s data calloc = some s ∧ llistInsertBack s data calloc = some s ∧
      llistPush s data calloc = some s ∧ llistEnqueue s data calloc = some s := by
  rcases h with rfl | rfl
  · exact ⟨rfl, rfl, rfl, rfl⟩
  · cases data <;> exact ⟨rfl, rfl, rfl, rfl⟩

/-- As a stack and as a list, the library inserts at the front in one way. -/
theorem llistPush_eq (s : Llist α) (data : Option α) (calloc : Bool) :
    llistPush s data calloc = llistInsertFront s data calloc := by
  cases data <;> cases calloc <;> rfl

/-- The list with a node that is allocated but not linked yet. -/
def withNode (s : Llist α) (d : α) : Llist α := { s with heap := s.heap.alloc ⟨d, none⟩ }

theorem llistInsertBack_some (s : Llist α) (d : α) :
    llistInsertBack s (some d) true = linkBack (withNode s d) s.heap.fresh := rfl

theorem llistEnqueue_some (s : Llist α) (d : α) :
    llistEnqueue s (some d) true = linkTail (withNode s d) s.heap.fresh := rfl

/-! ### The nodes of a list -/

/-- The list at `head` is `ns`, and `count` counts it. -/
structure Nodes (s : Llist α) (ns : List (ℕ × α)) : Prop where
  chain : Chain s.heap s.head ns
  count : s.count = ns.length

variable {s : Llist α} {ns : List (ℕ × α)}

theorem nodes_llistCreate : Nodes (llistCreate : Llist α) [] := ⟨rfl, rfl⟩

theorem Nodes.head_eq_none (h : Nodes s ns) : s.head = none ↔ ns = [] :=
  h.chain.eq_none_iff

theorem Nodes.isLlistEmpty_eq_zero (h : Nodes s ns) : isLlistEmpty s = 0 ↔ ns ≠ [] := by
  rw [isLlistEmpty, h.count]
  cases ns with
  | nil => simp
  | cons n ns => simp

theorem Nodes.lastNode_append {n : ℕ × α} (h : Nodes s (ns ++ [n])) :
    lastNode s = some n.1 := by
  have hchain := h.chain
  have hlen := hchain.length_le_fresh
  rw [List.length_append, List.length_singleton] at hlen
  rw [lastNode]
  cases hhead : s.head with
  | none => exact absurd (h.head_eq_none.mp hhead) (by simp)
  | some first =>
    rw [hhead] at hchain
    exact walk_of_chain hchain hlen

/-- A block that is not live is no node of the list. -/
theorem Nodes.ne_of_dead (h : Nodes s ns) {n : ℕ × α} (hn : n ∈ ns) {b : ℕ}
    (hb : s.heap.cell b = none) : n.1 ≠ b := by
  rintro rfl
  obtain ⟨r, hr⟩ := Seg.cell_of_mem h.chain hn
  exact absurd (hr.symm.trans hb) (by simp)

/-! ### What an insertion does -/

/-- What every insertion that succeeds leaves behind: the nodes `ns`, one new
block, and no freed block brought back. -/
structure Inserted (s s' : Llist α) (ns : List (ℕ × α)) : Prop where
  nodes : Nodes s' ns
  fresh : s'.heap.fresh = s.heap.fresh + 1
  dead : ∀ b, s.heap.cell b = none → b ≠ s.heap.fresh → s'.heap.cell b = none
  tail : s'.tail = s.tail ∨ s'.tail = some s.heap.fresh

theorem alloc_dead (s : Llist α) (v : Node α) {b : ℕ} (hb : s.heap.cell b = none)
    (hne : b ≠ s.heap.fresh) : (s.heap.alloc v).cell b = none := by
  rw [Heap.alloc_cell, if_neg hne, hb]

theorem linkFront_spec (h : Nodes s ns) (d : α) (hc : s.count + 1 < 2 ^ 64) :
    ∃ s', linkFront (withNode s d) s.heap.fresh = some s' ∧
      Inserted s s' ((s.heap.fresh, d) :: ns) := by
  refine ⟨{ count := s.count + 1, head := some s.heap.fresh,
            tail := if s.tail = none then some s.heap.fresh else s.tail,
            heap := s.heap.alloc ⟨d, s.head⟩ }, ?_, ?_⟩
  · show ((s.heap.alloc ⟨d, none⟩).modify (some s.heap.fresh) _).bind _ = _
    rw [Heap.alloc_modify_fresh, Option.bind_some]
    show some (Llist.mk (increment s.count) _ _ _) = _
    rw [increment_of_lt hc]
    rfl
  · refine ⟨⟨h.chain.alloc_front d, ?_⟩, rfl, fun b => alloc_dead s _, ?_⟩
    · show s.count + 1 = _
      rw [h.count, List.length_cons]
    · show (if s.tail = none then _ else _) = _ ∨ _
      split
      · exact Or.inr rfl
      · exact Or.inl rfl

theorem linkBack_spec (h : Nodes s ns) (d : α) (hc : s.count + 1 < 2 ^ 64) :
    ∃ s', linkBack (withNode s d) s.heap.fresh = some s' ∧
      Inserted s s' (ns ++ [(s.heap.fresh, d)]) := by
  obtain ⟨head, heap, hlink, hchain, hfresh, hcell⟩ := linkLast_spec h.chain d
  refine ⟨{ s with head, heap, count := s.count + 1 }, ?_,
    ⟨⟨hchain, ?_⟩, hfresh, ?_, Or.inl rfl⟩⟩
  · show (linkLast (s.heap.alloc ⟨d, none⟩) s.head s.heap.fresh).bind _ = _
    rw [hlink, Option.bind_some, ← increment_of_lt hc]
    rfl
  · show s.count + 1 = _
    rw [h.count, List.length_append, List.length_singleton]
  · intro b hb hne
    show heap.cell b = none
    rw [hcell b (fun n hn => h.ne_of_dead hn hb) hne, hb]

/-- On a list with a node, `linkTail` is a write through `tail`. -/
theorem linkTail_of_head {first : ℕ} (hhead : s.head = some first) (d : α) :
    linkTail (withNode s d) s.heap.fresh =
      ((s.heap.alloc ⟨d, none⟩).modify s.tail
        fun n => { n with next := some s.heap.fresh }).bind fun heap =>
          some { s with heap, tail := some s.heap.fresh, count := increment s.count } := by
  rw [linkTail]
  split
  · rename_i hnone
    exact absurd (hhead.symm.trans hnone) (by simp)
  · rfl

/-- On an empty list it only sets the pointers. -/
theorem linkTail_of_empty (hhead : s.head = none) (d : α) :
    linkTail (withNode s d) s.heap.fresh = some { withNode s d with
      head := some s.heap.fresh, tail := some s.heap.fresh, count := increment s.count } := by
  rw [linkTail]
  split
  · rfl
  · rename_i hsome
    exact absurd (hhead.symm.trans hsome) (by simp)

/-- Inserting through `tail` appends when `tail` is the last node. -/
theorem linkTail_spec (h : Nodes s ns) (d : α) (hc : s.count + 1 < 2 ^ 64)
    (htail : s.head = none ∨ s.tail = lastNode s) :
    ∃ s', linkTail (withNode s d) s.heap.fresh = some s' ∧
      Inserted s s' (ns ++ [(s.heap.fresh, d)]) := by
  rcases List.eq_nil_or_concat' ns with rfl | ⟨ms, n, rfl⟩
  · have hhead : s.head = none := h.chain
    refine ⟨_, linkTail_of_empty hhead d,
      ⟨⟨⟨rfl, none, s.heap.alloc_cell_fresh _, rfl⟩, ?_⟩, rfl, fun b => alloc_dead s _, Or.inr rfl⟩⟩
    show increment s.count = 1
    rw [increment_of_lt hc, h.count, List.length_nil]
  · cases hhead : s.head with
    | none => exact absurd (h.head_eq_none.mp hhead) (by simp)
    | some first =>
      obtain ⟨heap, hmod, hchain, hfresh, hcell⟩ := Chain.link_behind h.chain d
      have htail' : s.tail = some n.1 := by
        rcases htail with hnone | hlast
        · exact absurd (hhead.symm.trans hnone) (by simp)
        · rw [hlast, h.lastNode_append]
      refine ⟨{ s with heap, tail := some s.heap.fresh, count := s.count + 1 }, ?_,
        ⟨⟨?_, ?_⟩, hfresh, ?_, Or.inr rfl⟩⟩
      · rw [linkTail_of_head hhead, htail', hmod, Option.bind_some, increment_of_lt hc]
      · rw [List.append_assoc]
        exact hchain
      · show s.count + 1 = _
        rw [h.count]
        simp only [List.length_append, List.length_singleton]
      · intro b hb hne
        show heap.cell b = none
        rw [hcell b (h.ne_of_dead (by simp) hb).symm hne, hb]

/-! ### What a removal does -/

/-- `unlinkFront` takes the first node off the list and leaves it in the heap. -/
theorem unlinkFront_spec {n : ℕ × α} (h : Nodes s (n :: ns)) (hc : s.count < 2 ^ 64) :
    ∃ s' r, unlinkFront s = some (n.1, s') ∧ Nodes s' ns ∧
      s'.heap = s.heap ∧ s'.tail = s.tail ∧ s.heap.cell n.1 = some ⟨n.2, r⟩ := by
  obtain ⟨hhead, r, hr, hrest⟩ := h.chain
  have hcount := h.count
  rw [List.length_cons] at hcount
  refine ⟨{ s with head := r, count := ns.length }, r, ?_, ⟨hrest, rfl⟩, rfl, rfl, hr⟩
  show s.head.bind _ = _
  rw [hhead, Option.bind_some]
  show (s.heap.cell n.1).bind _ = _
  rw [hr, Option.bind_some, hcount, decrement_succ (by omega)]

/-- Without a first node the locked section reads through NULL. -/
theorem unlinkFront_eq_none (hhead : s.head = none) : unlinkFront s = none := by
  show s.head.bind _ = none
  rw [hhead, Option.bind_none]

/-- `releaseNode` hands out the data of a block and frees that block only. -/
theorem releaseNode_spec {a : ℕ} {d : α} {r : Option ℕ} (ha : s.heap.cell a = some ⟨d, r⟩) :
    ∃ heap, releaseNode s a = some (d, { s with heap }) ∧ heap.fresh = s.heap.fresh ∧
      ∀ b, heap.cell b = if b = a then none else s.heap.cell b := by
  obtain ⟨heap, hfree, hfresh, hcell⟩ := Heap.free_of_cell ha
  refine ⟨heap, ?_, hfresh, hcell⟩
  show (s.heap.cell a).bind _ = _
  rw [ha, Option.bind_some]
  show (s.heap.free a).bind _ = _
  rw [hfree, Option.bind_some]

theorem llistRemoveFront_nil (h : Nodes s []) : llistRemoveFront s = some (none, s) :=
  if_pos fun hzero => h.isLlistEmpty_eq_zero.mp hzero rfl

/-- `llist_remove_front` hands out the data of the first node and frees it. -/
theorem llistRemoveFront_cons {n : ℕ × α} (h : Nodes s (n :: ns)) (hc : s.count < 2 ^ 64) :
    ∃ s', llistRemoveFront s = some (some n.2, s') ∧ Nodes s' ns ∧ s'.tail = s.tail ∧
      s'.heap.fresh = s.heap.fresh ∧
      ∀ b, s'.heap.cell b = if b = n.1 then none else s.heap.cell b := by
  have hfull : ¬isLlistEmpty s ≠ 0 := by
    rw [not_not, h.isLlistEmpty_eq_zero]
    exact List.cons_ne_nil n ns
  obtain ⟨t, r, hunlink, hrest, hheap, htail, hcell⟩ := unlinkFront_spec h hc
  obtain ⟨heap, hrelease, hfresh, hfreed⟩ := releaseNode_spec (hheap ▸ hcell)
  refine ⟨{ t with heap }, ?_,
    ⟨Chain.of_notMem hrest.chain h.chain.ne_head hfreed, hrest.count⟩, htail,
    hheap ▸ hfresh, hheap ▸ hfreed⟩
  rw [llistRemoveFront, if_neg hfull]
  show (unlinkFront s).bind _ = _
  rw [hunlink, Option.bind_some]
  show (releaseNode t n.1).bind _ = _
  rw [hrelease]
  rfl

end LinkedListLib
