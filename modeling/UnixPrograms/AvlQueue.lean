/-
The queue of the level-order traversal, in memory.

`levelOrderLoop` runs on a queue that is a list of tree nodes.  In the library the
queue is a chain of `q_node_t` cells with a pointer to its first and to its last one:

* `enqueue`, `dequeue`, `queueDestroy` — as the library has them; `none` is a write
  or a read through NULL or through a freed cell;
* `Nodes` — the invariant: `p_tail` is the last cell, and apart from the cells of the
  queue the memory is what it was before the traversal;
* `visitLoop_spec` — the loop does what `levelOrderLoop` does, in finitely many rounds;
* `level_order_calls` — the calls of a traversal, and of writing the tree to a file.

All allocations succeed, and the `queue_t` itself is not among the cells.
-/
import UnixPrograms.Heap
import UnixPrograms.AvlLevelOrder

namespace AvlQueue

open Memory OrderedList AvlTreeLib AvlTreeLib.AvlNode

/-- `queue_t`, and the heap with its `q_node_t` cells. -/
structure Queue (α : Type) where
  pHead : Option ℕ
  pTail : Option ℕ
  heap : Heap (Node (AvlNode α))

variable {α : Type}

/-! ### The code -/

/-- `queue_create`: `calloc` zeroes both pointers. -/
def queueCreate (heap : Heap (Node (AvlNode α))) : Queue α := ⟨none, none, heap⟩

/-- `enqueue` of a node that is not NULL. -/
def enqueueNode (pQueue : Queue α) (pData : AvlNode α) : Option (Queue α) :=
  let pNewNode := pQueue.heap.fresh
  let heap := pQueue.heap.alloc ⟨pData, none⟩
  match pQueue.pTail with
  | none => some ⟨some pNewNode, some pNewNode, heap⟩
  | some pTail => do
    let heap ← heap.modify (some pTail) fun n => { n with next := some pNewNode }
    some ⟨pQueue.pHead, some pNewNode, heap⟩

/-- `enqueue`. -/
def enqueue (pQueue : Queue α) : AvlNode α → Option (Queue α)
  | null => some pQueue
  | node data height pLeft pRight => enqueueNode pQueue (node data height pLeft pRight)

/-- `dequeue`: the node, or NULL. -/
def dequeue (pQueue : Queue α) : Option (AvlNode α × Queue α) :=
  match pQueue.pHead with
  | none => some (null, pQueue)
  | some pTemp => do
    let temp ← pQueue.heap.cell pTemp
    let heap ← pQueue.heap.free pTemp
    -- `p_next` is read before the cell is freed
    if pQueue.pHead = pQueue.pTail then some (temp.data, ⟨none, none, heap⟩)
    else some (temp.data, ⟨temp.next, pQueue.pTail, heap⟩)

def queueIsEmpty (pQueue : Queue α) : Bool := pQueue.pHead.isNone

/-- `queue_destroy`; the fuel bounds the rounds of its loop. -/
def queueDestroy : ℕ → Queue α → Option (Queue α)
  | 0, _ => none
  | fuel + 1, pQueue =>
    if queueIsEmpty pQueue then some pQueue
    else do
      let (_, pQueue) ← dequeue pQueue
      queueDestroy fuel pQueue

/-- The loop of `avl_level_order` and of `write_avl_tree_to_file`: the data of its
calls, and the queue it leaves. -/
def visitLoop : ℕ → Queue α → Option (List α × Queue α)
  | 0, _ => none
  | fuel + 1, pQueue =>
    if queueIsEmpty pQueue then some ([], pQueue)
    else do
      let (pNode, pQueue) ← dequeue pQueue
      match pNode with
      -- reads `p_node->data` through NULL
      | null => none
      | node data _ pLeft pRight =>
        let pQueue ← enqueue pQueue pLeft
        let pQueue ← enqueue pQueue pRight
        let (calls, pQueue) ← visitLoop fuel pQueue
        some (data :: calls, pQueue)

/-- The part that the two functions share: the calls, and the memory afterwards. -/
def visit (heap : Heap (Node (AvlNode α))) (fuel : ℕ) (pRoot : AvlNode α) :
    Option (List α × Heap (Node (AvlNode α))) := do
  let pQueue ← enqueue (queueCreate heap) pRoot
  let (calls, pQueue) ← visitLoop fuel pQueue
  let pQueue ← queueDestroy fuel pQueue
  some (calls, pQueue.heap)

/-- `avl_level_order`. -/
def avlLevelOrder (heap : Heap (Node (AvlNode α))) (fuel : ℕ) (pTree : AvlTree α) :
    Option (List α × Heap (Node (AvlNode α))) :=
  match pTree.pRoot with
  | null => some ([], heap)
  | node data height pLeft pRight => visit heap fuel (node data height pLeft pRight)

/-- `write_avl_tree_to_file`; `fopen` says whether the file could be opened. -/
def writeAvlTreeToFile (heap : Heap (Node (AvlNode α))) (fuel : ℕ) (fopen : Bool)
    (pTree : AvlTree α) : Option (List α × Heap (Node (AvlNode α))) :=
  match pTree.pRoot with
  | null => some ([], heap)
  | node data height pLeft pRight =>
    if fopen then visit heap fuel (node data height pLeft pRight) else some ([], heap)

/-! ### The queue as a list -/

/-- The cells `ns` are the queue, and the rest of the memory is that of `heap`. -/
structure Nodes (heap : Heap (Node (AvlNode α))) (q : Queue α) (ns : List (ℕ × AvlNode α)) :
    Prop where
  chain : Chain q.heap q.pHead ns
  tail : q.pTail = ns.getLast?.map Prod.fst
  fresh : heap.fresh ≤ q.heap.fresh
  new : ∀ n ∈ ns, heap.fresh ≤ n.1
  frame : ∀ a, (∀ n ∈ ns, n.1 ≠ a) → q.heap.cell a = heap.cell a

variable {heap : Heap (Node (AvlNode α))} {q : Queue α} {ns : List (ℕ × AvlNode α)}

theorem nodes_queueCreate (heap : Heap (Node (AvlNode α))) : Nodes heap (queueCreate heap) [] where
  chain := rfl
  tail := rfl
  fresh := le_refl _
  new := by simp
  frame := fun _ _ => rfl

theorem Nodes.queueIsEmpty_iff (h : Nodes heap q ns) : queueIsEmpty q = true ↔ ns = [] := by
  rw [queueIsEmpty, Option.isNone_iff_eq_none]
  exact h.chain.eq_none_iff

theorem Nodes.not_queueIsEmpty {n : ℕ × AvlNode α} (h : Nodes heap q (n :: ns)) :
    ¬ queueIsEmpty q = true := by
  rw [h.queueIsEmpty_iff]
  exact List.cons_ne_nil n ns

/-- A node is put behind the last one. -/
theorem Nodes.enqueueNode (h : Nodes heap q ns) (t : AvlNode α) :
    ∃ q', enqueueNode q t = some q' ∧ Nodes heap q' (ns ++ [(q.heap.fresh, t)]) := by
  have hfresh := h.fresh
  rw [AvlQueue.enqueueNode]
  rcases List.eq_nil_or_concat' ns with rfl | ⟨ms, n, rfl⟩
  · have htail : q.pTail = none := h.tail
    rw [htail]
    refine ⟨_, rfl, ⟨⟨rfl, none, q.heap.alloc_cell_fresh _, rfl⟩, rfl, ?_, ?_, ?_⟩⟩
    · exact Nat.le_succ_of_le hfresh
    · intro n hn
      rw [List.mem_singleton.mp hn]
      exact hfresh
    · intro a ha
      have hne : a ≠ q.heap.fresh := (ha (q.heap.fresh, t) (by simp)).symm
      rw [← h.frame a (by simp)]
      exact (Heap.alloc_cell _ _ a).trans (if_neg hne)
  · have htail : q.pTail = some n.1 := by
      rw [h.tail, List.getLast?_concat]
      rfl
    obtain ⟨heap', hmod, hchain, hfresh', hcell⟩ := h.chain.link_behind t
    simp only [htail]
    refine ⟨⟨q.pHead, some q.heap.fresh, heap'⟩, ?_, ⟨?_, ?_, ?_, ?_, ?_⟩⟩
    · simp only [hmod]
      rfl
    · rw [List.append_assoc]
      exact hchain
    · simp
    · show heap.fresh ≤ heap'.fresh
      omega
    · intro m hm
      rcases List.mem_append.mp hm with hm | hm
      · exact h.new m hm
      · rw [List.mem_singleton.mp hm]
        exact hfresh
    · intro a ha
      rw [← h.frame a fun m hm => ha m (List.mem_append_left _ hm)]
      exact hcell a (ha n (by simp)).symm (ha (q.heap.fresh, t) (by simp)).symm

/-- The children of a node are queued as the list of nodes has them. -/
theorem Nodes.enqueue (h : Nodes heap q ns) (t : AvlNode α) :
    ∃ q' ms, enqueue q t = some q' ∧ Nodes heap q' ms ∧
      ms.map Prod.snd = AvlTreeLib.enqueue (ns.map Prod.snd) t := by
  cases t with
  | null => exact ⟨q, ns, rfl, h, rfl⟩
  | node data height pLeft pRight =>
    obtain ⟨q', hq', hnodes⟩ := h.enqueueNode (node data height pLeft pRight)
    refine ⟨q', _, hq', hnodes, ?_⟩
    rw [List.map_append]
    rfl

/-- The first node is taken off, also when it is the only one. -/
theorem Nodes.dequeue {n : ℕ × AvlNode α} (h : Nodes heap q (n :: ns)) :
    ∃ q', dequeue q = some (n.2, q') ∧ Nodes heap q' ns := by
  obtain ⟨hhead, r, hr, hrest⟩ := h.chain
  obtain ⟨heap', hfree, hfresh, hcell⟩ := Heap.free_of_cell hr
  have hchain : Chain heap' r ns := Chain.of_notMem hrest h.chain.ne_head hcell
  -- the freed cell was not in use before the traversal
  have hframe : ∀ a, (∀ m ∈ ns, m.1 ≠ a) → heap'.cell a = heap.cell a := by
    intro a ha
    rw [hcell]
    by_cases han : a = n.1
    · rw [if_pos han, han, heap.fresh_none n.1 (h.new n List.mem_cons_self)]
    · rw [if_neg han, h.frame a]
      intro m hm
      rcases List.mem_cons.mp hm with rfl | hm
      · exact Ne.symm han
      · exact ha m hm
  have hstep : AvlQueue.dequeue q =
      if q.pHead = q.pTail then some (n.2, ⟨none, none, heap'⟩)
      else some (n.2, ⟨r, q.pTail, heap'⟩) := by
    simp only [AvlQueue.dequeue, hhead]
    show (q.heap.cell n.1).bind _ = _
    rw [hr, Option.bind_some]
    show (q.heap.free n.1).bind _ = _
    rw [hfree, Option.bind_some]
  rw [hstep]
  rcases List.eq_nil_or_concat' ns with rfl | ⟨ms, m, rfl⟩
  · have htail : q.pTail = some n.1 := h.tail
    rw [hhead, htail, if_pos rfl]
    exact ⟨_, rfl, rfl, rfl, hfresh ▸ h.fresh, by simp, hframe⟩
  · have htail : q.pTail = some m.1 := by
      rw [h.tail, ← List.cons_append, List.getLast?_concat]
      rfl
    have hne : q.pHead ≠ q.pTail := by
      rw [hhead, htail]
      intro heq
      exact h.chain.ne_head m (by simp) (Option.some.inj heq).symm
    rw [if_neg hne]
    refine ⟨_, rfl, hchain, ?_, hfresh ▸ h.fresh, fun k hk => h.new k (List.mem_cons_of_mem n hk),
      hframe⟩
    rw [htail, List.getLast?_concat]
    rfl

/-! ### The loop -/

/-- **The queue in memory** goes through the nodes as the list of nodes does. -/
theorem visitLoop_spec {xs : List α} (h : Nodes heap q ns)
    (hloop : levelOrderLoop (ns.map Prod.snd) = some xs) {fuel : ℕ} (hfuel : xs.length < fuel) :
    ∃ q', visitLoop fuel q = some (xs, q') ∧ Nodes heap q' [] := by
  induction fuel generalizing q ns xs with
  | zero => exact absurd hfuel (Nat.not_lt_zero _)
  | succ fuel ih =>
    rw [visitLoop]
    cases ns with
    | nil =>
      rw [List.map_nil, levelOrderLoop] at hloop
      obtain rfl := Option.some.inj hloop
      rw [if_pos (h.queueIsEmpty_iff.mpr rfl)]
      exact ⟨q, rfl, h⟩
    | cons n ns =>
      obtain ⟨q₁, hq₁, h₁⟩ := h.dequeue
      rw [if_neg h.not_queueIsEmpty, hq₁]
      obtain ⟨a, t⟩ := n
      cases t with
      | null =>
        rw [List.map_cons, levelOrderLoop] at hloop
        exact absurd hloop (by simp)
      | node data height pLeft pRight =>
        obtain ⟨q₂, ns₂, hq₂, h₂, hmap₂⟩ := h₁.enqueue pLeft
        obtain ⟨q₃, ns₃, hq₃, h₃, hmap₃⟩ := h₂.enqueue pRight
        rw [List.map_cons, levelOrderLoop, ← hmap₂, ← hmap₃] at hloop
        obtain ⟨ys, hys, rfl⟩ := Option.map_eq_some_iff.mp hloop
        rw [List.length_cons] at hfuel
        obtain ⟨q', hq', hend⟩ := ih h₃ hys (by omega)
        refine ⟨q', ?_, hend⟩
        show (enqueue q₁ pLeft).bind _ = _
        rw [hq₂, Option.bind_some]
        show (enqueue q₂ pRight).bind _ = _
        rw [hq₃, Option.bind_some]
        show (visitLoop fuel q₃).bind _ = _
        rw [hq', Option.bind_some]

/-- `queue_destroy` frees what is left in a queue. -/
theorem queueDestroy_spec (h : Nodes heap q ns) {fuel : ℕ} (hfuel : ns.length < fuel) :
    ∃ q', queueDestroy fuel q = some q' ∧ Nodes heap q' [] := by
  induction fuel generalizing q ns with
  | zero => exact absurd hfuel (Nat.not_lt_zero _)
  | succ fuel ih =>
    rw [queueDestroy]
    cases ns with
    | nil =>
      rw [if_pos (h.queueIsEmpty_iff.mpr rfl)]
      exact ⟨q, rfl, h⟩
    | cons n ns =>
      obtain ⟨q₁, hq₁, h₁⟩ := h.dequeue
      rw [if_neg h.not_queueIsEmpty, hq₁]
      exact ih h₁ (by simpa using hfuel)

/-! ### The traversal -/

/-- The data of a tree, level by level. -/
def levels (t : AvlNode α) : List α := (List.range (depth t)).flatMap fun j => level j t

/-- Every node is in one level, once. -/
theorem levels_perm {n : ℕ} {t : AvlNode α} (hn : depth t ≤ n) :
    ((List.range n).flatMap fun j => level j t).Perm (avlInorderAction t) := by
  induction t generalizing n with
  | null => simp
  | node d h l r ihl ihr =>
    rw [depth] at hn
    obtain ⟨n, rfl⟩ : ∃ k, n = k + 1 := ⟨n - 1, by omega⟩
    have hbelow : ((List.range n).flatMap fun j => level j l ++ level j r).Perm
        (avlInorderAction l ++ avlInorderAction r) :=
      (List.flatMap_append_perm _ _ _).symm.trans ((ihl (by omega)).append (ihr (by omega)))
    rw [List.range_succ_eq_map, List.flatMap_cons, List.flatMap_map, avlInorderAction_node]
    exact (hbelow.cons d).trans List.perm_middle.symm

/-- Both functions go through the levels and leave the memory as it was. -/
theorem visit_spec (heap : Heap (Node (AvlNode α))) {t : AvlNode α} {fuel : ℕ}
    (hfuel : (levels t).length < fuel) :
    ∃ heap', visit heap fuel t = some (levels t, heap') ∧ ∀ a, heap'.cell a = heap.cell a := by
  obtain ⟨q₁, ns, hq₁, h₁, hmap⟩ := (nodes_queueCreate heap).enqueue t
  have hloop : levelOrderLoop (ns.map Prod.snd) = some (levels t) := by
    rw [hmap]
    exact levelOrderLoop_root t
  obtain ⟨q₂, hq₂, h₂⟩ := visitLoop_spec h₁ hloop hfuel
  obtain ⟨q₃, hq₃, h₃⟩ := queueDestroy_spec h₂ (show [].length < fuel from Nat.zero_lt_of_lt hfuel)
  refine ⟨q₃.heap, ?_, fun a => h₃.frame a (by simp)⟩
  show (enqueue (queueCreate heap) t).bind _ = _
  rw [hq₁, Option.bind_some]
  show (visitLoop fuel q₁).bind _ = _
  rw [hq₂, Option.bind_some]
  show (queueDestroy fuel q₂).bind _ = _
  rw [hq₃, Option.bind_some]

/-- **The calls of a traversal**: one for each node, level by level from left to
right.  The loop ends, nothing is read through NULL or after it was freed, and every
cell of the queue is freed. -/
theorem level_order_calls (heap : Heap (Node (AvlNode α))) (pTree : AvlTree α)
    (hroot : pTree.pRoot ≠ null) :
    (levels pTree.pRoot).Perm (avlInorderAction pTree.pRoot) ∧
      ∃ rounds, ∀ fuel, rounds ≤ fuel → ∃ heap', (∀ a, heap'.cell a = heap.cell a) ∧
        avlLevelOrder heap fuel pTree = some (levels pTree.pRoot, heap') ∧
        writeAvlTreeToFile heap fuel true pTree = some (levels pTree.pRoot, heap') := by
  refine ⟨levels_perm (le_refl _), (levels pTree.pRoot).length + 1, ?_⟩
  intro fuel hfuel
  obtain ⟨heap', hvisit, hsame⟩ := visit_spec heap hfuel
  rw [avlLevelOrder, writeAvlTreeToFile]
  cases ht : pTree.pRoot with
  | null => exact absurd ht hroot
  | node data height pLeft pRight =>
    rw [ht] at hvisit
    exact ⟨heap', hsame, hvisit, hvisit⟩

theorem level_order_calls_three :
    (levels (node (2 : Int) 1 (node 1 0 null null) (node 3 0 null null))).Perm
        (avlInorderAction (node (2 : Int) 1 (node 1 0 null null) (node 3 0 null null))) ∧
      ∃ rounds, ∀ fuel, rounds ≤ fuel → ∃ heap' : Heap (Node (AvlNode Int)),
        (∀ a, heap'.cell a = Heap.empty.cell a) ∧
        avlLevelOrder Heap.empty fuel ⟨node 2 1 (node 1 0 null null) (node 3 0 null null), 3, intCmp⟩
          = some (levels (node 2 1 (node 1 0 null null) (node 3 0 null null)), heap') ∧
        writeAvlTreeToFile Heap.empty fuel true
            ⟨node 2 1 (node 1 0 null null) (node 3 0 null null), 3, intCmp⟩
          = some (levels (node 2 1 (node 1 0 null null) (node 3 0 null null)), heap') :=
  level_order_calls Heap.empty ⟨node 2 1 (node 1 0 null null) (node 3 0 null null), 3, intCmp⟩
    (by simp)

end AvlQueue
