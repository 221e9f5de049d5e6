/-
Level-order traversal, and the tree rebuilt from it.

`avl_level_order` and `write_avl_tree_to_file` visit the nodes with a queue.

* `levelOrderLoop_eq` — the queue visits the levels one after the other, each
  from left to right;
* `insertNode_prune` — cutting a valid tree off after some nodes of a level
  leaves a valid tree (`prune`), and inserting the next node of that level
  grows it without a rotation;
* `levelOrder_rebuilds` — hence inserting the visited data into a fresh tree
  rebuilds the same tree, stored heights included.
-/
import UnixPrograms.AvlHeight

namespace AvlTreeLib

open AvlNode Machine OrderedList

variable {α : Type*}

/-! ### The queue -/

/-- `avl_node_count`. -/
def avlNodeCount : AvlNode α → ℕ
  | null => 0
  | node _ _ l r => avlNodeCount l + avlNodeCount r + 1

/-- `enqueue` on the queue of the traversal, its allocation succeeding: a NULL
node is not queued. -/
def enqueue (pQueue : List (AvlNode α)) : AvlNode α → List (AvlNode α)
  | null => pQueue
  | node d h l r => pQueue ++ [node d h l r]

theorem enqueue_eq_append (q : List (AvlNode α)) (t : AvlNode α) :
    enqueue q t = q ++ enqueue [] t := by
  cases t <;> simp [enqueue]

theorem sum_avlNodeCount_enqueue (q : List (AvlNode α)) (t : AvlNode α) :
    ((enqueue q t).map avlNodeCount).sum = (q.map avlNodeCount).sum + avlNodeCount t := by
  cases t <;> simp [enqueue, avlNodeCount]

/-- The loop `while (!queue_is_empty)`: the data handed to the user function. -/
def levelOrderLoop : List (AvlNode α) → Option (List α)
  | [] => some []
  | null :: _ => none
  | node d _ l r :: pQueue =>
    (levelOrderLoop (enqueue (enqueue pQueue l) r)).map fun xs => d :: xs
termination_by q => (q.map avlNodeCount).sum
decreasing_by
  rw [sum_avlNodeCount_enqueue, sum_avlNodeCount_enqueue, List.map_cons, List.sum_cons,
    avlNodeCount]
  omega

/-- `avl_level_order`: the arguments of the calls of `func`. -/
def avlLevelOrder (pTree : AvlTree α) : Option (List α) :=
  match pTree.pRoot with
  | null => some []
  | node d h l r => levelOrderLoop (enqueue [] (node d h l r))

/-- `write_avl_tree_to_file`: the data of the calls of `write_func`; `fopen`
says whether the file could be opened. -/
def writeAvlTreeToFile (fopen : Bool) (pTree : AvlTree α) : Option (List α) :=
  match pTree.pRoot with
  | null => some []
  | node d h l r => if fopen then levelOrderLoop (enqueue [] (node d h l r)) else some []

/-! ### Levels -/

/-- The data at depth `j`, from left to right. -/
def level : ℕ → AvlNode α → List α
  | _, null => []
  | 0, node d _ _ _ => [d]
  | j + 1, node _ _ l r => level j l ++ level j r

@[simp] theorem level_null (j : ℕ) : level j (null : AvlNode α) = [] := by
  cases j <;> rfl

/-- The number of levels. -/
def depth : AvlNode α → ℕ
  | null => 0
  | node _ _ l r => max (depth l) (depth r) + 1

/-- The children of a node, as the loop queues them. -/
def children : AvlNode α → List (AvlNode α)
  | null => []
  | node _ _ l r => enqueue (enqueue [] l) r

theorem children_ne_null {t c : AvlNode α} (h : c ∈ children t) : c ≠ null := by
  rcases t with _ | ⟨d, th, _ | _, _ | _⟩ <;> simp [children, enqueue] at h
  · simp [h]
  · simp [h]
  · rcases h with rfl | rfl <;> simp

theorem depth_children {t c : AvlNode α} (h : c ∈ children t) : depth c < depth t := by
  rcases t with _ | ⟨d, th, l, r⟩
  · simp [children] at h
  · have hc : c = l ∨ c = r := by
      cases l <;> cases r <;> simp_all [children, enqueue]
    rw [depth]
    rcases hc with rfl | rfl <;> omega

theorem level_children (j : ℕ) (t : AvlNode α) :
    (children t).flatMap (level j) = level (j + 1) t := by
  rcases t with _ | ⟨d, h, _ | _, _ | _⟩ <;> simp [children, enqueue, level]

/-- The loop takes the nodes of a level off the queue and puts their children
at its end. -/
theorem levelOrderLoop_append {xs : List (AvlNode α)} (hxs : ∀ t ∈ xs, t ≠ null)
    (ys : List (AvlNode α)) :
    levelOrderLoop (xs ++ ys) =
      (levelOrderLoop (ys ++ xs.flatMap children)).map fun l => xs.flatMap (level 0) ++ l := by
  induction xs generalizing ys with
  | nil => simp
  | cons t xs ih =>
    rcases t with _ | ⟨d, h, l, r⟩
    · exact absurd rfl (hxs null List.mem_cons_self)
    · -- the children go behind `ys`, after those of the nodes visited before
      rw [List.cons_append, levelOrderLoop, enqueue_eq_append, enqueue_eq_append,
        List.append_assoc, List.append_assoc, ih fun t ht => hxs t (List.mem_cons_of_mem _ ht)]
      simp only [Option.map_map, List.flatMap_cons, children]
      rw [enqueue_eq_append (enqueue [] l), List.append_assoc, List.append_assoc]
      rfl

/-- **The queue visits level by level.** -/
theorem levelOrderLoop_eq {q : List (AvlNode α)} {n : ℕ} (hq : ∀ t ∈ q, t ≠ null)
    (hn : ∀ t ∈ q, depth t ≤ n) :
    levelOrderLoop q = some ((List.range n).flatMap fun j => q.flatMap (level j)) := by
  -- one round over the queue is one level; its children are one level less deep
  induction n generalizing q with
  | zero =>
    have hq0 : q = [] := by
      refine List.eq_nil_iff_forall_not_mem.mpr fun t ht => ?_
      rcases t with _ | ⟨d, h, l, r⟩
      · exact hq null ht rfl
      · have := hn _ ht
        rw [depth] at this
        omega
    rw [hq0, levelOrderLoop]
    rfl
  | succ n ih =>
    have hlevel : ∀ j, (q.flatMap children).flatMap (level j) = q.flatMap (level (j + 1)) := by
      intro j
      rw [List.flatMap_assoc]
      exact List.flatMap_congr fun t _ => level_children j t
    have hloop := levelOrderLoop_append hq []
    rw [List.append_nil, List.nil_append] at hloop
    rw [hloop, ih, List.range_succ_eq_map]
    · simp only [Option.map_some, List.flatMap_cons, List.flatMap_map, hlevel]
    · intro c hc
      obtain ⟨t, -, hct⟩ := List.mem_flatMap.mp hc
      exact children_ne_null hct
    · intro c hc
      obtain ⟨t, ht, hct⟩ := List.mem_flatMap.mp hc
      have := hn t ht
      have := depth_children hct
      omega

/-- The visited data of a tree. -/
theorem levelOrderLoop_root (t : AvlNode α) :
    levelOrderLoop (enqueue [] t) =
      some ((List.range (depth t)).flatMap fun j => level j t) := by
  rcases t with _ | ⟨d, h, l, r⟩
  · simp [enqueue, levelOrderLoop, depth]
  · have h := levelOrderLoop_eq (q := [node d h l r]) (n := depth (node d h l r))
      (by simp) (by simp)
    simpa [enqueue] using h

theorem avlLevelOrder_eq (s : AvlTree α) :
    avlLevelOrder s =
      some ((List.range (depth s.pRoot)).flatMap fun j => level j s.pRoot) := by
  rw [avlLevelOrder, ← levelOrderLoop_root]
  rcases s.pRoot with _ | ⟨d, h, l, r⟩
  · simp [enqueue, levelOrderLoop]
  · rfl

theorem writeAvlTreeToFile_eq (s : AvlTree α) :
    writeAvlTreeToFile true s = avlLevelOrder s := by
  rw [writeAvlTreeToFile, avlLevelOrder]
  rcases s.pRoot with _ | ⟨d, h, l, r⟩ <;> rfl

theorem mem_of_mem_level {j : ℕ} {t : AvlNode α} {x : α} (h : x ∈ level j t) :
    x ∈ avlInorderAction t := by
  induction t generalizing j with
  | null => simp at h
  | node d th l r ihl ihr =>
    cases j with
    | zero =>
      rw [level, List.mem_singleton] at h
      simp [h]
    | succ j =>
      obtain h | h := List.mem_append.mp h
      · simp [ihl h]
      · simp [ihr h]

/-- A valid tree with a node at depth `j` is at least `j` high. -/
theorem le_height_of_mem_level {j : ℕ} {t : AvlNode α} {x : α} (ht : ValidAvl t)
    (h : x ∈ level j t) : (j : Int) ≤ height t := by
  induction t generalizing j with
  | null => simp at h
  | node d th l r ihl ihr =>
    obtain ⟨hh, -, -, hl, hr⟩ := validAvl_node.mp ht
    have := hl.neg_one_le
    rw [height_node]
    cases j with
    | zero => push_cast; omega
    | succ j =>
      push_cast
      obtain h | h := List.mem_append.mp h
      · have := ihl hl h
        omega
      · have := ihr hr h
        omega

/-! ### Trees cut off inside a level -/

/-- The nodes above depth `j` and the first `m` nodes at depth `j`, with exact
heights. -/
def prune : ℕ → ℕ → AvlNode α → AvlNode α
  | _, _, null => null
  | 0, m, node d _ _ _ => if m = 0 then null else node d 0 null null
  | j + 1, m, node d _ l r =>
    let l' := prune j (min m (level j l).length) l
    let r' := prune j (m - (level j l).length) r
    node d (max (height l') (height r') + 1) l' r'

@[simp] theorem prune_null (j m : ℕ) : prune j m (null : AvlNode α) = null := by
  cases j <;> rfl

theorem prune_zero_zero (t : AvlNode α) : prune 0 0 t = null := by
  cases t <;> rfl

theorem height_prune {j m : ℕ} {t : AvlNode α} (ht : ValidAvl t) (hm : m ≤ (level j t).length) :
    height (prune j m t) = if m = 0 then min (height t) ((j : Int) - 1) else (j : Int) := by
  induction t generalizing j m with
  | null =>
    have hm0 : m = 0 := by simpa using hm
    subst hm0
    have : (0 : Int) ≤ (j : Int) := Int.natCast_nonneg j
    rw [prune_null, if_pos rfl, height_null]
    omega
  | node d h l r ihl ihr =>
    obtain ⟨hh, hb1, hb2, hl, hr⟩ := validAvl_node.mp ht
    have hl0 := hl.neg_one_le
    have hr0 := hr.neg_one_le
    cases j with
    | zero =>
      rw [prune]
      by_cases hm0 : m = 0
      · rw [if_pos hm0, if_pos hm0, height_null, height_node]
        push_cast
        omega
      · rw [if_neg hm0, if_neg hm0]
        rfl
    | succ j =>
      rw [level, List.length_append] at hm
      -- the left subtree fills up first, the right one gets what is left of `m`
      have h1 := ihl hl (show min m (level j l).length ≤ (level j l).length by omega)
      have h2 := ihr hr (show m - (level j l).length ≤ (level j r).length by omega)
      simp only [prune, height_node]
      rw [h1, h2]
      push_cast
      split_ifs <;> omega

/-- A whole level is the next level cut off at its start. -/
theorem prune_level_length (j : ℕ) (t : AvlNode α) :
    prune j (level j t).length t = prune (j + 1) 0 t := by
  induction t generalizing j with
  | null => simp
  | node d h l r ihl ihr =>
    cases j with
    | zero => simp [prune, level, prune_zero_zero]
    | succ j =>
      have h1 : min ((level j l).length + (level j r).length) (level j l).length =
        (level j l).length := by omega
      have h2 : (level j l).length + (level j r).length - (level j l).length =
        (level j r).length := by omega
      rw [prune, prune, level, List.length_append, h1, h2, ihl, ihr]
      simp

/-- Cutting below the last level changes nothing. -/
theorem prune_of_depth_le {n : ℕ} {t : AvlNode α} (ht : ValidAvl t) (hn : depth t ≤ n) :
    prune n 0 t = t := by
  induction t generalizing n with
  | null => exact prune_null n 0
  | node d h l r ihl ihr =>
    obtain ⟨hh, -, -, hl, hr⟩ := validAvl_node.mp ht
    rw [depth] at hn
    obtain ⟨n, rfl⟩ : ∃ k, n = k + 1 := ⟨n - 1, by omega⟩
    simp only [prune, Nat.zero_min, Nat.zero_sub]
    rw [ihl hl (by omega), ihr hr (by omega), hh, add_comm]

/-- **Inserting the next node of the level** follows its own path and performs
no rotation. -/
theorem insertNode_prune {cmp : α → α → Int} (hc : TotalPreorder cmp) {j m : ℕ}
    {t : AvlNode α} {x : α} (ht : ValidAvl t) (hinc : Increasing cmp (avlInorderAction t))
    (hx : (level j t)[m]? = some x) :
    insertNode cmp true x (prune j m t) = some (prune j (m + 1) t, 0) := by
  induction t generalizing j m with
  | null => simp at hx
  | node d h l r ihl ihr =>
    obtain ⟨hh, hb1, hb2, hl, hr⟩ := validAvl_node.mp ht
    rw [avlInorderAction_node] at hinc
    obtain ⟨hil, hir, hld, hdr⟩ := (increasing_append_cons hc).mp hinc
    cases j with
    | zero =>
      rw [level] at hx
      -- the root is the only node of its level
      obtain ⟨rfl, rfl⟩ : m = 0 ∧ d = x := by
        cases m with
        | zero => simpa using hx
        | succ m => simp at hx
      simp [prune, insertNode]
    | succ j =>
      rw [level] at hx
      by_cases hm : m < (level j l).length
      · -- the next node is in the left subtree, the right one is cut off at its start
        rw [List.getElem?_append_left hm] at hx
        have hxl : x ∈ level j l := List.mem_of_getElem? hx
        have hlt : cmp x d < 0 := hld x (mem_of_mem_level hxl)
        have hj := le_height_of_mem_level hl hxl
        have hm1 : min m (level j l).length = m := by omega
        have hm2 : min (m + 1) (level j l).length = m + 1 := by omega
        have hm3 : m - (level j l).length = 0 := by omega
        have hm4 : m + 1 - (level j l).length = 0 := by omega
        have hgl := height_prune hl (show m + 1 ≤ (level j l).length by omega)
        have hgr := height_prune hr (Nat.zero_le (level j r).length)
        rw [if_neg (by omega)] at hgl
        rw [if_pos rfl] at hgr
        simp only [prune, hm1, hm2, hm3, hm4]
        rw [insertNode, if_pos hlt, ihl hl hil hx]
        simp only [Option.bind_eq_bind, Option.bind_some]
        rw [insertFixLeft_of_ne (by omega)]
        rfl
      · -- the left subtree has its whole level already
        rw [List.getElem?_append_right (by omega)] at hx
        have hxr : x ∈ level j r := List.mem_of_getElem? hx
        have hgt : 0 < cmp x d := (hc.antisymm d x).mp (hdr x (mem_of_mem_level hxr))
        have hj := le_height_of_mem_level hr hxr
        have hmr : m - (level j l).length < (level j r).length :=
          (List.getElem?_eq_some_iff.mp hx).choose
        have hm1 : min m (level j l).length = (level j l).length := by omega
        have hm2 : min (m + 1) (level j l).length = (level j l).length := by omega
        have hm3 : m + 1 - (level j l).length = m - (level j l).length + 1 := by omega
        have hgl := height_prune hl (le_refl (level j l).length)
        have hgr := height_prune hr (show m - (level j l).length + 1 ≤ (level j r).length by omega)
        rw [if_neg (by omega)] at hgr
        have hgl' : (j : Int) - 1 ≤ height (prune j (level j l).length l) := by
          rw [hgl]
          split_ifs <;> omega
        simp only [prune, hm1, hm2, hm3]
        rw [insertNode, if_neg (by omega), if_pos hgt, ihr hr hir hx]
        simp only [Option.bind_eq_bind, Option.bind_some]
        rw [insertFixRight_of_ne (by omega)]
        rfl

/-! ### Rebuilding -/

/-- Insertions that follow a sequence of trees without a rotation. -/
theorem run_insert_of_steps {cmp : α → α → Int} {f : ℕ → AvlNode α} (xs : List α) {c : Int}
    (h : ∀ i x, xs[i]? = some x → insertNode cmp true x (f i) = some (f (i + 1), 0)) :
    run (avlStep true) ⟨f 0, c, cmp⟩ (xs.map .insert) =
      some (⟨f xs.length, c + xs.length, cmp⟩, xs.map fun _ => .inserted 0) := by
  induction xs generalizing f c with
  | nil => simp [run]
  | cons x xs ih =>
    have hstep : avlStep true ⟨f 0, c, cmp⟩ (.insert x) =
        some (⟨f 1, c + 1, cmp⟩, .inserted 0) :=
      avlStep_insert.mpr ⟨f 1, 0, h 0 x rfl, rfl, rfl⟩
    have hrest := ih (f := fun i => f (i + 1)) (c := c + 1) fun i y hy => h (i + 1) y hy
    simp only [List.map_cons, run, hstep, hrest, Option.map_some, List.length_cons]
    push_cast
    rw [add_assoc, add_comm (1 : Int)]

/-- Inserting the first `n` levels. -/
theorem run_insert_levels {cmp : α → α → Int} (hc : TotalPreorder cmp) {t : AvlNode α}
    (ht : ValidAvl t) (hinc : Increasing cmp (avlInorderAction t)) (n : ℕ) :
    ∃ c outs, run (avlStep true) (avlCreate cmp)
        (((List.range n).flatMap fun j => level j t).map .insert) =
          some (⟨prune n 0 t, c, cmp⟩, outs) ∧ ∀ o ∈ outs, o = .inserted 0 := by
  induction n with
  | zero => exact ⟨0, [], by simp [run, avlCreate, prune_zero_zero], by simp⟩
  | succ n ih =>
    obtain ⟨c, outs, hrun, houts⟩ := ih
    -- inside level `n` the trees are `prune n 0 t`, `prune n 1 t`, and so on
    have hlevel := run_insert_of_steps (f := fun m => prune n m t) (c := c) (level n t)
      fun m x hx => insertNode_prune hc ht hinc hx
    rw [prune_level_length] at hlevel
    refine ⟨c + (level n t).length, outs ++ (level n t).map fun _ => .inserted 0, ?_, ?_⟩
    · rw [List.range_succ, List.flatMap_append, List.map_append, run_append hrun,
        List.flatMap_singleton, hlevel]
      rfl
    · intro o ho
      obtain ho | ho := List.mem_append.mp ho
      · exact houts o ho
      · simp only [List.mem_map] at ho
        obtain ⟨_, _, rfl⟩ := ho
        rfl

/-- **The level order rebuilds the tree.**  Inserting the data in the order in
which the traversal visits it, or in which it is written to a file, into a
fresh tree gives the same tree with the same stored heights, and no insertion
performs a rotation. -/
theorem levelOrder_rebuilds {cmp : α → α → Int} (hc : TotalPreorder cmp) {s : AvlTree α}
    (hv : ValidAvl s.pRoot) (hinc : Increasing cmp (avlInorderAction s.pRoot)) :
    ∃ xs, avlLevelOrder s = some xs ∧ writeAvlTreeToFile true s = some xs ∧
      ∃ s' outs, run (avlStep true) (avlCreate cmp) (xs.map .insert) = some (s', outs) ∧
        s'.pRoot = s.pRoot ∧ ∀ o ∈ outs, o = .inserted 0 := by
  obtain ⟨c, outs, hrun, houts⟩ := run_insert_levels hc hv hinc (depth s.pRoot)
  rw [prune_of_depth_le hv (le_refl _)] at hrun
  exact ⟨_, avlLevelOrder_eq s, by rw [writeAvlTreeToFile_eq, avlLevelOrder_eq],
    _, outs, hrun, rfl, houts⟩

/-- The tree of 1 to 5, in level order. -/
theorem levelOrder_rebuilds_five :
    ∃ xs, avlLevelOrder (⟨node 4 2 (node 2 1 (node 1 0 null null) (node 3 0 null null))
        (node 5 0 null null), 5, intCmp⟩ : AvlTree Int) = some xs ∧
      writeAvlTreeToFile true (⟨node 4 2 (node 2 1 (node 1 0 null null) (node 3 0 null null))
        (node 5 0 null null), 5, intCmp⟩ : AvlTree Int) = some xs ∧
      ∃ s' outs, run (avlStep true) (avlCreate intCmp) (xs.map .insert) = some (s', outs) ∧
        s'.pRoot = node 4 2 (node 2 1 (node 1 0 null null) (node 3 0 null null))
          (node 5 0 null null) ∧
        ∀ o ∈ outs, o = .inserted 0 :=
  levelOrder_rebuilds intCmp_totalPreorder (by decide)
    (by simp [Increasing, intCmp])

end AvlTreeLib
