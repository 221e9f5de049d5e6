/-
The level-order traversal when memory runs out.

`enqueue` answers nothing: when its `calloc` fails, the node it was given is not
queued, and the traversal goes on without that node and all below it.

* `Failing.Blocks` — the memory, now with the blocks of `queue_t` as well;
* `Failing.visitLoop` — the loop, with the outcomes of the allocations to come,
  `visit_nil` the one of `AvlQueue` where none fails;
* `CutFrom` — a tree some of whose subtrees are gone;
* `exists_cut`, `exists_callocs` — with failures the loop goes through the levels of
  a tree that is cut from the real one, and through those of any such tree;
* `level_order_failures` — so the data that a caller of `avl_level_order` or a reader
  of the file gets to see are those of the cut trees, and of no others.
-/
import UnixPrograms.AvlQueue

namespace AvlQueue

namespace Failing

open Memory AvlTreeLib AvlTreeLib.AvlNode

variable {α : Type}

/-! ### The code -/

/-- The outcome of the next `calloc`, and those of the ones after it.  Beyond the list
every allocation succeeds. -/
def nextCalloc : List Bool → Bool × List Bool
  | [] => (true, [])
  | ok :: callocs => (ok, callocs)

/-- The blocks of `queue_t`, with `p_head` and `p_tail`, and those of `q_node_t`. -/
structure Blocks (α : Type) where
  queues : Heap (Option ℕ × Option ℕ)
  nodes : Heap (Node (AvlNode α))

/-- The `queue_t` behind a pointer, with the nodes; `none` through NULL and through a
block that was freed. -/
def Blocks.load (mem : Blocks α) (pQueue : Option ℕ) : Option (Queue α) :=
  (mem.queues.load pQueue).map fun q => ⟨q.1, q.2, mem.nodes⟩

/-- Both fields and the nodes are written back. -/
def Blocks.store (mem : Blocks α) (pQueue : Option ℕ) (q : Queue α) : Option (Blocks α) :=
  (mem.queues.modify pQueue fun _ => (q.pHead, q.pTail)).map fun queues => ⟨queues, q.heap⟩

/-- `queue_create`. -/
def queueCreate (ok : Bool) (mem : Blocks α) : Option ℕ × Blocks α :=
  if ok then (some mem.queues.fresh, { mem with queues := mem.queues.alloc (none, none) })
  else (none, mem)

/-- `enqueue`. -/
def enqueue (callocs : List Bool) (mem : Blocks α) (pQueue : Option ℕ) (pData : AvlNode α) :
    Option (List Bool × Blocks α) :=
  match pQueue, pData with
  | none, _ => some (callocs, mem)
  | _, null => some (callocs, mem)
  | pQueue, node data height pLeft pRight =>
    let (ok, callocs) := nextCalloc callocs
    if ok then do
      let q ← mem.load pQueue
      let q ← enqueueNode q (node data height pLeft pRight)
      let mem ← mem.store pQueue q
      some (callocs, mem)
    else some (callocs, mem)

/-- The loop of `avl_level_order` and of `write_avl_tree_to_file`. -/
def visitLoop : ℕ → List Bool → Blocks α → Option ℕ → Option (List α × Blocks α)
  | 0, _, _, _ => none
  | fuel + 1, callocs, mem, pQueue => do
    let q ← mem.load pQueue
    if queueIsEmpty q then some ([], mem)
    else
      let (pNode, q) ← dequeue q
      let mem ← mem.store pQueue q
      match pNode with
      | null => none
      | node data _ pLeft pRight =>
        let (callocs, mem) ← enqueue callocs mem pQueue pLeft
        let (callocs, mem) ← enqueue callocs mem pQueue pRight
        let (calls, mem) ← visitLoop fuel callocs mem pQueue
        some (data :: calls, mem)

/-- `queue_destroy`, which frees the `queue_t` last. -/
def queueDestroy : ℕ → Blocks α → Option ℕ → Option (Blocks α)
  | _, mem, none => some mem
  | 0, _, some _ => none
  | fuel + 1, mem, some pQueue => do
    let q ← mem.load (some pQueue)
    if queueIsEmpty q then
      (mem.queues.free pQueue).map fun queues => { mem with queues }
    else
      let (_, q) ← dequeue q
      let mem ← mem.store (some pQueue) q
      queueDestroy fuel mem (some pQueue)

/-- The part that the two functions share, from `queue_create` on. -/
def visit (mem : Blocks α) (fuel : ℕ) (callocs : List Bool) (pRoot : AvlNode α) :
    Option (List α × Blocks α) :=
  let (ok, callocs) := nextCalloc callocs
  match queueCreate ok mem with
  -- without a queue nothing is visited
  | (none, mem) => some ([], mem)
  | (some pQueue, mem) => do
    let (callocs, mem) ← enqueue callocs mem (some pQueue) pRoot
    let (calls, mem) ← visitLoop fuel callocs mem (some pQueue)
    let mem ← queueDestroy fuel mem (some pQueue)
    some (calls, mem)

/-- `avl_level_order`. -/
def avlLevelOrder (mem : Blocks α) (fuel : ℕ) (callocs : List Bool) (pTree : AvlTree α) :
    Option (List α × Blocks α) :=
  match pTree.pRoot with
  | null => some ([], mem)
  | node data height pLeft pRight => visit mem fuel callocs (node data height pLeft pRight)

/-- `write_avl_tree_to_file`. -/
def writeAvlTreeToFile (mem : Blocks α) (fuel : ℕ) (callocs : List Bool) (fopen : Bool)
    (pTree : AvlTree α) : Option (List α × Blocks α) :=
  match pTree.pRoot with
  | null => some ([], mem)
  | node data height pLeft pRight =>
    if fopen then visit mem fuel callocs (node data height pLeft pRight) else some ([], mem)

/-! ### The block of the queue -/

/-- The memory while a queue is in its block, the first one behind those of `queues`. -/
def during (queues : Heap (Option ℕ × Option ℕ)) (q : Queue α) : Blocks α :=
  ⟨queues.alloc (q.pHead, q.pTail), q.heap⟩

section Block

variable (queues : Heap (Option ℕ × Option ℕ)) (q q' : Queue α)

@[simp] theorem load_during : (during queues q).load (some queues.fresh) = some q := by
  rw [Blocks.load, during, Heap.load_some, Heap.alloc_cell_fresh]
  rfl

@[simp] theorem store_during :
    (during queues q).store (some queues.fresh) q' = some (during queues q') := by
  rw [Blocks.store, during, Heap.alloc_modify_fresh]
  rfl

/-- Freeing the block brings the blocks back that were there before. -/
theorem free_during :
    ∃ queues', (during queues q).queues.free queues.fresh = some queues' ∧
      ∀ a, queues'.cell a = queues.cell a := by
  obtain ⟨queues', hfree, -, hcell⟩ :=
    Heap.free_of_cell (queues.alloc_cell_fresh (q.pHead, q.pTail))
  refine ⟨queues', hfree, fun a => ?_⟩
  rw [hcell, Heap.alloc_cell]
  split_ifs with ha
  · rw [ha, queues.fresh_none _ (le_refl _)]
  · rfl

end Block

/-! ### With every allocation succeeding -/

theorem enqueue_nil (queues : Heap (Option ℕ × Option ℕ)) (q : Queue α) (t : AvlNode α) :
    enqueue [] (during queues q) (some queues.fresh) t =
      (AvlQueue.enqueue q t).map fun q => ([], during queues q) := by
  cases t with
  | null => rfl
  | node data height pLeft pRight =>
    simp only [enqueue, nextCalloc, if_true, load_during, Option.bind_eq_bind, Option.bind_some,
      store_during, AvlQueue.enqueue, Option.map_eq_bind, Function.comp_def]

theorem visitLoop_nil (queues : Heap (Option ℕ × Option ℕ)) (fuel : ℕ) (q : Queue α) :
    visitLoop fuel [] (during queues q) (some queues.fresh) =
      (AvlQueue.visitLoop fuel q).map fun p => (p.1, during queues p.2) := by
  induction fuel generalizing q with
  | zero => rfl
  | succ fuel ih =>
    rw [visitLoop, AvlQueue.visitLoop]
    simp only [load_during, Option.bind_eq_bind, Option.bind_some]
    split
    · rfl
    · rcases dequeue q with _ | ⟨pNode, q₁⟩
      · rfl
      · cases pNode with
        | null => simp only [Option.bind_some, store_during, Option.map_none]
        | node data height pLeft pRight =>
          simp only [Option.bind_some, store_during, enqueue_nil, Option.bind_map,
            Function.comp_def, ih, Option.map_bind, Option.map_some]

theorem queueDestroy_during (queues : Heap (Option ℕ × Option ℕ)) (fuel : ℕ) (q : Queue α) :
    (queueDestroy fuel (during queues q) (some queues.fresh)).map Blocks.nodes =
      (AvlQueue.queueDestroy fuel q).map Queue.heap := by
  induction fuel generalizing q with
  | zero => rfl
  | succ fuel ih =>
    rw [queueDestroy, AvlQueue.queueDestroy]
    simp only [load_during, Option.bind_eq_bind, Option.bind_some]
    split
    · obtain ⟨queues', hfree, -⟩ := free_during queues q
      rw [hfree]
      rfl
    · rcases dequeue q with _ | ⟨pNode, q₁⟩
      · rfl
      · simp only [Option.bind_some, store_during, ih]

/-- The functions then visit, and do to the nodes, what those without failures do. -/
theorem visit_nil (mem : Blocks α) (fuel : ℕ) (pRoot : AvlNode α) :
    (visit mem fuel [] pRoot).map (fun p => (p.1, p.2.nodes)) =
      AvlQueue.visit mem.nodes fuel pRoot := by
  have hcreate : queueCreate true mem =
      (some mem.queues.fresh, during mem.queues (AvlQueue.queueCreate mem.nodes)) := rfl
  simp only [visit, AvlQueue.visit, nextCalloc, hcreate, Option.bind_eq_bind, enqueue_nil,
    Option.bind_map, Function.comp_def, visitLoop_nil, Option.map_bind, Option.map_some]
  refine congrArg _ (funext fun q => congrArg _ (funext fun p => ?_))
  have hdestroy := congrArg (Option.map (Prod.mk p.1)) (queueDestroy_during mem.queues fuel p.2)
  simpa only [Option.map_eq_bind, Option.bind_assoc, Function.comp_def, Option.bind_some]
    using hdestroy

/-! ### The queue as a list -/

/-- What `enqueue` puts into the queue, and the outcomes that are left. -/
def queued (callocs : List Bool) : AvlNode α → List Bool × List (AvlNode α)
  | null => (callocs, [])
  | node data height pLeft pRight =>
    ((nextCalloc callocs).2,
      if (nextCalloc callocs).1 then [node data height pLeft pRight] else [])

theorem sum_queued_le (callocs : List Bool) (t : AvlNode α) :
    ((queued callocs t).2.map avlNodeCount).sum ≤ avlNodeCount t := by
  cases t with
  | null => exact le_refl _
  | node data height pLeft pRight =>
    rw [queued]
    cases (nextCalloc callocs).1 with
    | true => exact le_refl _
    | false => exact Nat.zero_le _

/-- The data that the loop visits. -/
def visited : List Bool → List (AvlNode α) → List α
  | _, [] => []
  | _, null :: _ => []
  | callocs, node d _ l r :: q =>
    d :: visited (queued (queued callocs l).1 r).1
      (q ++ ((queued callocs l).2 ++ (queued (queued callocs l).1 r).2))
termination_by _ q => (q.map avlNodeCount).sum
decreasing_by
  have hl := sum_queued_le callocs l
  have hr := sum_queued_le (queued callocs l).1 r
  rw [List.map_append, List.map_append, List.sum_append, List.sum_append, List.map_cons,
    List.sum_cons, avlNodeCount]
  omega

variable {heap : Heap (Node (AvlNode α))} (queues : Heap (Option ℕ × Option ℕ)) {q : Queue α}
  {ns : List (ℕ × AvlNode α)}

/-- A node is put behind the last one, or the queue stays as it is. -/
theorem enqueue_spec (h : Nodes heap q ns) (callocs : List Bool) (t : AvlNode α) :
    ∃ q' ms, enqueue callocs (during queues q) (some queues.fresh) t =
        some ((queued callocs t).1, during queues q') ∧ Nodes heap q' ms ∧
      ms.map Prod.snd = ns.map Prod.snd ++ (queued callocs t).2 := by
  cases t with
  | null => exact ⟨q, ns, rfl, h, (List.append_nil _).symm⟩
  | node data height pLeft pRight =>
    simp only [enqueue, queued]
    cases hok : (nextCalloc callocs).1 with
    | true =>
      obtain ⟨q', hq', hnodes⟩ := h.enqueueNode (node data height pLeft pRight)
      refine ⟨q', _, ?_, hnodes, by rw [List.map_append]; rfl⟩
      simp only [if_true, load_during, Option.bind_eq_bind, Option.bind_some, hq', store_during]
    | false => exact ⟨q, ns, rfl, h, (List.append_nil _).symm⟩

theorem queued_ne_null (callocs : List Bool) (t : AvlNode α) :
    ∀ u ∈ (queued callocs t).2, u ≠ null := by
  intro u hu
  cases t with
  | null => exact absurd hu (by simp [queued])
  | node data height pLeft pRight =>
    rw [queued] at hu
    split at hu
    · rw [List.mem_singleton.mp hu]
      simp
    · exact absurd hu (by simp)

/-- **The queue in memory** goes through the nodes as the list of nodes does. -/
theorem visitLoop_spec (h : Nodes heap q ns) (hns : ∀ t ∈ ns.map Prod.snd, t ≠ null)
    (callocs : List Bool) {fuel : ℕ}
    (hfuel : (visited callocs (ns.map Prod.snd)).length < fuel) :
    ∃ q', visitLoop fuel callocs (during queues q) (some queues.fresh) =
        some (visited callocs (ns.map Prod.snd), during queues q') ∧ Nodes heap q' [] := by
  induction fuel generalizing q ns callocs with
  | zero => exact absurd hfuel (Nat.not_lt_zero _)
  | succ fuel ih =>
    rw [visitLoop]
    simp only [load_during, Option.bind_eq_bind, Option.bind_some]
    cases ns with
    | nil =>
      rw [if_pos (h.queueIsEmpty_iff.mpr rfl), List.map_nil, visited]
      exact ⟨q, rfl, h⟩
    | cons n ns =>
      obtain ⟨q₁, hq₁, h₁⟩ := h.dequeue
      rw [if_neg h.not_queueIsEmpty, hq₁]
      obtain ⟨a, t⟩ := n
      cases t with
      | null => exact absurd rfl (hns null List.mem_cons_self)
      | node data height pLeft pRight =>
        obtain ⟨q₂, ns₂, hq₂, h₂, hmap₂⟩ := enqueue_spec queues h₁ callocs pLeft
        obtain ⟨q₃, ns₃, hq₃, h₃, hmap₃⟩ :=
          enqueue_spec queues h₂ (queued callocs pLeft).1 pRight
        rw [hmap₂, List.append_assoc] at hmap₃
        -- only children that are there are queued
        have hrest : ∀ t ∈ ns₃.map Prod.snd, t ≠ null := by
          intro t ht
          rw [hmap₃] at ht
          rcases List.mem_append.mp ht with ht | ht
          · exact hns t (List.mem_cons_of_mem _ ht)
          · rcases List.mem_append.mp ht with ht | ht
            · exact queued_ne_null callocs pLeft t ht
            · exact queued_ne_null _ pRight t ht
        rw [List.map_cons, visited, ← hmap₃] at hfuel ⊢
        obtain ⟨q', hq', hend⟩ := ih h₃ hrest _ (by simpa using hfuel)
        refine ⟨q', ?_, hend⟩
        simp only [Option.bind_some, store_during, hq₂, hq₃, hq']

/-- What is left in the queue is freed, and the queue after it. -/
theorem queueDestroy_spec (h : Nodes heap q ns) {fuel : ℕ} (hfuel : ns.length < fuel) :
    ∃ mem, queueDestroy fuel (during queues q) (some queues.fresh) = some mem ∧
      (∀ a, mem.queues.cell a = queues.cell a) ∧ ∀ a, mem.nodes.cell a = heap.cell a := by
  induction fuel generalizing q ns with
  | zero => exact absurd hfuel (Nat.not_lt_zero _)
  | succ fuel ih =>
    rw [queueDestroy]
    simp only [load_during, Option.bind_eq_bind, Option.bind_some]
    cases ns with
    | nil =>
      obtain ⟨queues', hfree, hcell⟩ := free_during queues q
      rw [if_pos (h.queueIsEmpty_iff.mpr rfl), hfree]
      exact ⟨_, rfl, hcell, fun a => h.frame a (by simp)⟩
    | cons n ns =>
      obtain ⟨q₁, hq₁, h₁⟩ := h.dequeue
      rw [if_neg h.not_queueIsEmpty, hq₁]
      simp only [Option.bind_some, store_during]
      exact ih h₁ (by simpa using hfuel)

/-! ### Cut trees -/

/-- `u` is `t` without some of its subtrees. -/
def CutFrom : AvlNode α → AvlNode α → Prop
  | null, _ => True
  | node d h l r, node d' h' l' r' => d = d' ∧ h = h' ∧ CutFrom l l' ∧ CutFrom r r'
  | node _ _ _ _, null => False

/-- Nothing new is at any depth of a cut tree, and what is there keeps its order. -/
theorem CutFrom.level_sublist {u t : AvlNode α} (h : CutFrom u t) (j : ℕ) :
    (level j u).Sublist (level j t) := by
  induction u generalizing t j with
  | null =>
    rw [level_null]
    exact List.nil_sublist _
  | node d uh l r ihl ihr =>
    cases t with
    | null => exact absurd h not_false
    | node d' th l' r' =>
      obtain ⟨rfl, -, hl, hr⟩ := h
      cases j with
      | zero => exact List.Sublist.refl _
      | succ j => exact (ihl hl j).append (ihr hr j)

theorem CutFrom.depth_le {u t : AvlNode α} (h : CutFrom u t) : depth u ≤ depth t := by
  induction u generalizing t with
  | null => exact Nat.zero_le _
  | node d uh l r ihl ihr =>
    cases t with
    | null => exact absurd h not_false
    | node d' th l' r' =>
      have hl := ihl h.2.2.1
      have hr := ihr h.2.2.2
      rw [depth, depth]
      omega

theorem CutFrom.levels_sublist {u t : AvlNode α} (h : CutFrom u t) :
    (levels u).Sublist (levels t) :=
  ((List.range_sublist.mpr h.depth_le).flatMap _).trans
    (List.Sublist.flatMap_right _ fun j _ => h.level_sublist j)

/-- What a node in the queue comes to: a tree cut from it, with the node itself. -/
def Kept (u t : AvlNode α) : Prop := u ≠ null ∧ CutFrom u t

/-- A child that is queued, or is not. -/
theorem exists_cut_of_queued {callocs : List Bool} {t : AvlNode α} {us : List (AvlNode α)}
    (h : List.Forall₂ Kept us (queued callocs t).2) :
    ∃ u, CutFrom u t ∧ AvlTreeLib.enqueue [] u = us := by
  cases t with
  | null =>
    rw [queued, List.forall₂_nil_right_iff] at h
    exact ⟨null, trivial, h.symm⟩
  | node data height pLeft pRight =>
    rw [queued] at h
    split at h
    · obtain ⟨u, us, hu, hus, rfl⟩ := List.forall₂_cons_right_iff.mp h
      rw [List.forall₂_nil_right_iff] at hus
      refine ⟨u, hu.2, ?_⟩
      cases u with
      | null => exact absurd rfl hu.1
      | node => rw [hus]; rfl
    · rw [List.forall₂_nil_right_iff] at h
      exact ⟨null, trivial, h.symm⟩

/-- Every cut of a child is what some outcome makes of it. -/
theorem exists_callocs_of_cut {u t : AvlNode α} (h : CutFrom u t) :
    ∃ outcome ts, (∀ callocs, queued (outcome ++ callocs) t = (callocs, ts)) ∧
      List.Forall₂ Kept (AvlTreeLib.enqueue [] u) ts := by
  cases t with
  | null =>
    cases u with
    | null => exact ⟨[], [], fun _ => rfl, .nil⟩
    | node => exact absurd h not_false
  | node data height pLeft pRight =>
    cases u with
    | null => exact ⟨[false], [], fun _ => rfl, .nil⟩
    | node => exact ⟨[true], _, fun _ => rfl, .cons ⟨by simp, h⟩ .nil⟩

/-- One round on a tree that is cut: the data of its root, then its children behind
the rest of the queue. -/
theorem levelOrderLoop_node (d : α) (h : Int) (l r : AvlNode α) (us : List (AvlNode α)) :
    levelOrderLoop (node d h l r :: us) =
      (levelOrderLoop (us ++ (AvlTreeLib.enqueue [] l ++ AvlTreeLib.enqueue [] r))).map
        fun xs => d :: xs := by
  rw [levelOrderLoop, enqueue_eq_append (AvlTreeLib.enqueue us l), enqueue_eq_append us,
    List.append_assoc]

/-- **With failures, a cut tree.** -/
theorem exists_cut (callocs : List Bool) (ts : List (AvlNode α)) (hts : ∀ t ∈ ts, t ≠ null) :
    ∃ us, List.Forall₂ Kept us ts ∧ levelOrderLoop us = some (visited callocs ts) := by
  induction callocs, ts using visited.induct with
  | case1 callocs => exact ⟨[], .nil, by rw [levelOrderLoop, visited]⟩
  | case2 callocs ts => exact absurd rfl (hts null List.mem_cons_self)
  | case3 callocs d h l r ts ih =>
    have hrest : ∀ t ∈ ts ++ ((queued callocs l).2 ++ (queued (queued callocs l).1 r).2),
        t ≠ null := by
      intro t ht
      rcases List.mem_append.mp ht with ht | ht
      · exact hts t (List.mem_cons_of_mem _ ht)
      · rcases List.mem_append.mp ht with ht | ht
        · exact queued_ne_null callocs l t ht
        · exact queued_ne_null _ r t ht
    obtain ⟨us, hus, hloop⟩ := ih hrest
    -- the cut of the rest of the queue, and those of the two children
    have hfirst := List.forall₂_take_append us _ _ hus
    have hlast := List.forall₂_drop_append us _ _ hus
    obtain ⟨l', hl', hql⟩ := exists_cut_of_queued (List.forall₂_take_append _ _ _ hlast)
    obtain ⟨r', hr', hqr⟩ := exists_cut_of_queued (List.forall₂_drop_append _ _ _ hlast)
    refine ⟨node d h l' r' :: us.take ts.length, .cons ⟨by simp, rfl, rfl, hl', hr'⟩ hfirst, ?_⟩
    rw [levelOrderLoop_node, hql, hqr, List.take_append_drop, List.take_append_drop, hloop,
      Option.map_some, visited]

/-- **Every cut tree, with some failures.** -/
theorem exists_callocs {us ts : List (AvlNode α)} (h : List.Forall₂ Kept us ts) :
    ∃ callocs, levelOrderLoop us = some (visited callocs ts) := by
  induction us using levelOrderLoop.induct generalizing ts with
  | case1 =>
    rw [List.forall₂_nil_left_iff.mp h]
    exact ⟨[], by rw [levelOrderLoop, visited]⟩
  | case2 us =>
    obtain ⟨t, ts, ht, -, -⟩ := List.forall₂_cons_left_iff.mp h
    exact absurd rfl ht.1
  | case3 d h' l r us ih =>
    obtain ⟨t, ts, ⟨-, hcut⟩, hrest, rfl⟩ := List.forall₂_cons_left_iff.mp h
    cases t with
    | null => exact absurd hcut not_false
    | node d' th l' r' =>
      obtain ⟨rfl, -, hl, hr⟩ := hcut
      obtain ⟨fates, tl, hqueued, hkept⟩ := exists_callocs_of_cut hl
      obtain ⟨fates', tr, hqueued', hkept'⟩ := exists_callocs_of_cut hr
      have hnext : List.Forall₂ Kept (AvlTreeLib.enqueue (AvlTreeLib.enqueue us l) r)
          (ts ++ (tl ++ tr)) := by
        rw [enqueue_eq_append (AvlTreeLib.enqueue us l), enqueue_eq_append us, List.append_assoc]
        exact List.rel_append hrest (List.rel_append hkept hkept')
      obtain ⟨callocs, hloop⟩ := ih hnext
      refine ⟨fates ++ (fates' ++ callocs), ?_⟩
      rw [levelOrderLoop, hloop, visited, hqueued, hqueued', Option.map_some]

/-! ### The traversal -/

/-- What becomes of a tree: nothing without a queue, else what the loop makes of it. -/
def visitedRoot (callocs : List Bool) (t : AvlNode α) : List α :=
  if (nextCalloc callocs).1 then
    visited (queued (nextCalloc callocs).2 t).1 (queued (nextCalloc callocs).2 t).2
  else []

/-- The same blocks are in use, with the same contents. -/
def Blocks.Same (mem mem' : Blocks α) : Prop :=
  (∀ a, mem'.queues.cell a = mem.queues.cell a) ∧ ∀ a, mem'.nodes.cell a = mem.nodes.cell a

/-- Whatever fails, the queue and its cells are all freed. -/
theorem visit_spec (mem : Blocks α) (callocs : List Bool) (t : AvlNode α) {fuel : ℕ}
    (hfuel : (visitedRoot callocs t).length < fuel) :
    ∃ mem', visit mem fuel callocs t = some (visitedRoot callocs t, mem') ∧ mem.Same mem' := by
  rw [visitedRoot] at hfuel ⊢
  simp only [visit]
  cases hok : (nextCalloc callocs).1 with
  | false => exact ⟨mem, rfl, fun _ => rfl, fun _ => rfl⟩
  | true =>
    rw [hok, if_pos rfl] at hfuel
    have hcreate : queueCreate true mem =
        (some mem.queues.fresh, during mem.queues (AvlQueue.queueCreate mem.nodes)) := rfl
    obtain ⟨q₁, ns, hq₁, h₁, hmap⟩ :=
      enqueue_spec mem.queues (nodes_queueCreate mem.nodes) (nextCalloc callocs).2 t
    rw [List.map_nil, List.nil_append] at hmap
    obtain ⟨q₂, hq₂, h₂⟩ := visitLoop_spec mem.queues h₁
      (by rw [hmap]; exact queued_ne_null _ t) (queued (nextCalloc callocs).2 t).1
      (by rw [hmap]; exact hfuel)
    obtain ⟨mem', hmem', hsame⟩ := queueDestroy_spec mem.queues h₂
      (show [].length < fuel from Nat.zero_lt_of_lt hfuel)
    refine ⟨mem', ?_, hsame⟩
    simp only [hcreate, if_true, Option.bind_eq_bind, hq₁, Option.bind_some, hq₂, hmem', hmap]

theorem visitedRoot_cut (callocs : List Bool) (t : AvlNode α) :
    ∃ u, CutFrom u t ∧ visitedRoot callocs t = levels u := by
  rw [visitedRoot]
  split
  · obtain ⟨us, hus, hloop⟩ := exists_cut (queued (nextCalloc callocs).2 t).1
      (queued (nextCalloc callocs).2 t).2 (queued_ne_null _ t)
    obtain ⟨u, hu, rfl⟩ := exists_cut_of_queued hus
    rw [levelOrderLoop_root] at hloop
    exact ⟨u, hu, (Option.some.inj hloop).symm⟩
  · exact ⟨null, trivial, rfl⟩

theorem exists_visitedRoot {u t : AvlNode α} (h : CutFrom u t) :
    ∃ callocs, visitedRoot callocs t = levels u := by
  obtain ⟨fates, ts, hqueued, hkept⟩ := exists_callocs_of_cut h
  obtain ⟨callocs, hloop⟩ := exists_callocs hkept
  rw [levelOrderLoop_root] at hloop
  refine ⟨true :: (fates ++ callocs), ?_⟩
  rw [visitedRoot, nextCalloc, if_pos rfl, hqueued]
  exact (Option.some.inj hloop).symm

/-- **The traversal when memory runs out.**  Whichever allocations fail, the loop ends,
reads nothing through NULL or after it was freed, gives back the queue and its cells and
returns as ever; the data that it visits, and that are written to the file, are those of
a tree cut from the real one, level by level, and every cut tree comes out of some
failures. -/
theorem level_order_failures (mem : Blocks α) (pTree : AvlTree α) :
    (∀ callocs, ∃ u, CutFrom u pTree.pRoot ∧ (levels u).Sublist (levels pTree.pRoot) ∧
      ∃ rounds, ∀ fuel, rounds ≤ fuel → ∃ mem', mem.Same mem' ∧
        avlLevelOrder mem fuel callocs pTree = some (levels u, mem') ∧
        writeAvlTreeToFile mem fuel callocs true pTree = some (levels u, mem')) ∧
    ∀ u, CutFrom u pTree.pRoot → ∃ callocs rounds, ∀ fuel, rounds ≤ fuel →
      ∃ mem', mem.Same mem' ∧ avlLevelOrder mem fuel callocs pTree = some (levels u, mem') ∧
        writeAvlTreeToFile mem fuel callocs true pTree = some (levels u, mem') := by
  -- a NULL root has one cut, and neither function makes a queue for it
  have hvisit : ∀ callocs u, CutFrom u pTree.pRoot → visitedRoot callocs pTree.pRoot = levels u →
      ∃ rounds, ∀ fuel, rounds ≤ fuel → ∃ mem', mem.Same mem' ∧
        avlLevelOrder mem fuel callocs pTree = some (levels u, mem') ∧
        writeAvlTreeToFile mem fuel callocs true pTree = some (levels u, mem') := by
    intro callocs u hu heq
    refine ⟨(levels u).length + 1, fun fuel hfuel => ?_⟩
    rw [avlLevelOrder, writeAvlTreeToFile]
    cases ht : pTree.pRoot with
    | null =>
      rw [ht] at hu
      cases u with
      | null => exact ⟨mem, ⟨fun _ => rfl, fun _ => rfl⟩, rfl, rfl⟩
      | node => exact absurd hu not_false
    | node d h l r =>
      rw [ht] at heq
      obtain ⟨mem', hspec, hsame⟩ := visit_spec mem callocs (node d h l r)
        (by rw [heq]; exact hfuel)
      rw [heq] at hspec
      exact ⟨mem', hsame, hspec, hspec⟩
  constructor
  · intro callocs
    obtain ⟨u, hu, heq⟩ := visitedRoot_cut callocs pTree.pRoot
    exact ⟨u, hu, hu.levels_sublist, hvisit callocs u hu heq⟩
  · intro u hu
    obtain ⟨callocs, heq⟩ := exists_visitedRoot hu
    exact ⟨callocs, hvisit callocs u hu heq⟩

example : visitedRoot [true, true, false] (node 2 1 (node 1 0 null null) (node 3 0 null null)) =
    [2, 3] := by simp [visitedRoot, nextCalloc, queued, visited]

end Failing

end AvlQueue
