/-
The AVL tree of `avl_tree_lib.c`.

A tree of uniquely owned `avl_node_t` cells is an inductive tree whose nodes
keep the height the C code stored in them, right or wrong.  A function that
would follow a NULL pointer answers `none`:

* `rotatePRight`, `rotatePLeft` and the two double rotations;
* `insertNode`, which also counts the rotations it performs;
* `deleteNode`, which also lists the data handed to `user_free`;
* `searchHelper`, and the entry points `avlCreate`, `avlInsert`,
  `avlDeleteNode`, `avlSearch` put together in `avlStep`.

Pointers that a function compares with NULL before it starts (`p_tree`, `data`,
`cmp_func`) have types without NULL; only the sign of a comparison is used.
-/
import UnixPrograms.Machine

namespace AvlTreeLib

/-- `avl_node_t *`: NULL, or a node with its stored height. -/
inductive AvlNode (α : Type*) where
  | null
  | node (data : α) (height : Int) (pLeft pRight : AvlNode α)
  deriving DecidableEq, Repr

open AvlNode

variable {α : Type*}

/-- `height`: -1 for NULL, the stored field otherwise. -/
def height : AvlNode α → Int
  | null => -1
  | node _ h _ _ => h

@[simp] theorem height_null : height (null : AvlNode α) = -1 := rfl

@[simp] theorem height_node (d : α) (h : Int) (l r : AvlNode α) :
    height (node d h l r) = h := rfl

/-! ### Rotations -/

/-- `rotate_p_right`: NULL when the node or its left child is missing. -/
def rotatePRight : AvlNode α → AvlNode α
  | node d _ (node ld _ ll lr) r =>
    let hd := max (height lr) (height r) + 1
    node ld (max (height ll) hd + 1) ll (node d hd lr r)
  | _ => null

/-- `rotate_p_left`: NULL when the node or its right child is missing. -/
def rotatePLeft : AvlNode α → AvlNode α
  | node d _ l (node rd _ rl rr) =>
    let hd := max (height l) (height rl) + 1
    node rd (max (height rr) hd + 1) (node d hd l rl) rr
  | _ => null

/-- `rotate_p_left_p_right`: writes through `p_node` without a test. -/
def rotatePLeftPRight : AvlNode α → Option (AvlNode α)
  | null => none
  | node d h l r => some (rotatePRight (node d h (rotatePLeft l) r))

/-- `rotate_p_right_p_left`: returns NULL for a NULL `p_node`. -/
def rotatePRightPLeft : AvlNode α → AvlNode α
  | null => null
  | node d h l r => rotatePLeft (node d h l (rotatePRight r))

/-! ### In-order traversal -/

/-- `avl_inorder_action`: the data in the order `user_func` is called on it. -/
def avlInorderAction : AvlNode α → List α
  | null => []
  | node d _ l r => avlInorderAction l ++ d :: avlInorderAction r

@[simp] theorem avlInorderAction_null : avlInorderAction (null : AvlNode α) = [] := rfl

@[simp] theorem avlInorderAction_node (d : α) (h : Int) (l r : AvlNode α) :
    avlInorderAction (node d h l r) = avlInorderAction l ++ d :: avlInorderAction r := rfl

/-! ### Insertion -/

/-- `p_node->height = max(height(p_node->p_left), height(p_node->p_right)) + 1`. -/
def setHeight : AvlNode α → Option (AvlNode α)
  | null => none
  | node d _ l r => some (node d (max (height l) (height r) + 1) l r)

/-- The test and the rotation `insert_node` makes after inserting on the left,
with the number of rotations performed. -/
def insertFixLeft (cmp : α → α → Int) (data : α) :
    AvlNode α → Option (AvlNode α × ℕ)
  | null => none
  | node d h l r =>
    if height l - height r = 2 then
      match l with
      | null => none
      | node ld lh ll lr =>
        -- `data` is compared with the child, which is then not NULL
        if cmp data ld < 0 then
          some (rotatePRight (node d h (node ld lh ll lr) r), 1)
        else
          (rotatePLeftPRight (node d h (node ld lh ll lr) r)).map fun t => (t, 1)
    else some (node d h l r, 0)

/-- The test and the rotation `insert_node` makes after inserting on the right. -/
def insertFixRight (cmp : α → α → Int) (data : α) :
    AvlNode α → Option (AvlNode α × ℕ)
  | null => none
  | node d h l r =>
    if height r - height l = 2 then
      match r with
      | null => none
      | node rd rh rl rr =>
        if 0 < cmp data rd then
          some (rotatePLeft (node d h l (node rd rh rl rr)), 1)
        else
          some (rotatePRightPLeft (node d h l (node rd rh rl rr)), 1)
    else some (node d h l r, 0)

/-- `insert_node`; `calloc` says whether its one allocation succeeds.  The
number is that of the rotations performed. -/
def insertNode (cmp : α → α → Int) (calloc : Bool) (data : α) :
    AvlNode α → Option (AvlNode α × ℕ)
  -- a failed allocation leaves the NULL it found
  | null => some (if calloc then node data 0 null null else null, 0)
  | node d h l r =>
    if cmp data d < 0 then do
      let (pLeft, k) ← insertNode cmp calloc data l
      let (pNode, k') ← insertFixLeft cmp data (node d h pLeft r)
      let pNode ← setHeight pNode
      some (pNode, k + k')
    else if 0 < cmp data d then do
      let (pRight, k) ← insertNode cmp calloc data r
      let (pNode, k') ← insertFixRight cmp data (node d h l pRight)
      let pNode ← setHeight pNode
      some (pNode, k + k')
    -- equal data: nothing is inserted, and `data` is not kept
    else do
      let pNode ← setHeight (node d h l r)
      some (pNode, 0)

/-! ### Search -/

/-- `search_helper`: note the argument order `cmp(p_root->data, data)`. -/
def searchHelper (cmp : α → α → Int) (data : α) : AvlNode α → Option α
  | null => none
  | node d _ l r =>
    if cmp d data = 0 then some d
    else if cmp d data < 0 then searchHelper cmp data r
    else searchHelper cmp data l

/-! ### Deletion -/

/-- What `delete_node` leaves in `*pp_root`, what it returns, and the arguments
of its calls of `destroy`. -/
structure DeleteResult (α : Type*) where
  root : AvlNode α
  bNodeDeleted : Bool
  destroyed : List α
  deriving DecidableEq

/-- The data of the last node of the walk `while (p_successor->p_left)`. -/
def successorData : AvlNode α → Option α
  | null => none
  | node d _ null _ => some d
  | node _ _ (node ld lh ll lr) _ => successorData (node ld lh ll lr)

/-- The tree after that node is replaced by its right child in its parent.  No
height on the way is written. -/
def spliceSuccessor : AvlNode α → Option (AvlNode α)
  | null => none
  | node _ _ null r => some r
  | node d h (node ld lh ll lr) r =>
    (spliceSuccessor (node ld lh ll lr)).map fun l => node d h l r

/-- The branch of `delete_node` that has found the node. -/
def removeFound (h : Int) : AvlNode α → AvlNode α → Option (AvlNode α)
  | null, r => some r
  | node ld lh ll lr, null => some (node ld lh ll lr)
  -- the node keeps its height and its children, and takes the successor's data
  | node ld lh ll lr, node rd rh rl rr => do
    let s ← successorData (node rd rh rl rr)
    let r ← spliceSuccessor (node rd rh rl rr)
    some (node s h (node ld lh ll lr) r)

/-- The end of `delete_node`: new height from the stored heights of the
children, then the rotations. -/
def rebalance : AvlNode α → Option (AvlNode α)
  | null => some null
  | node d _ l r =>
    let h := 1 + max (height l) (height r)
    let balance := height l - height r
    if 1 < balance then
      match l with
      | null => none
      | node ld lh ll lr =>
        if height lr ≤ height ll then
          some (rotatePRight (node d h (node ld lh ll lr) r))
        else
          some (rotatePRight (node d h (rotatePLeft (node ld lh ll lr)) r))
    else if balance < -1 then
      match r with
      | null => none
      | node rd rh rl rr =>
        if height rl ≤ height rr then
          some (rotatePLeft (node d h l (node rd rh rl rr)))
        else
          some (rotatePLeft (node d h l (rotatePRight (node rd rh rl rr))))
    else some (node d h l r)

/-- `delete_node`. -/
def deleteNode (cmp : α → α → Int) (data : α) : AvlNode α → Option (DeleteResult α)
  | null => some ⟨null, false, []⟩
  | node d h l r =>
    if cmp data d < 0 then do
      let res ← deleteNode cmp data l
      let root ← rebalance (node d h res.root r)
      some ⟨root, res.bNodeDeleted, res.destroyed⟩
    else if 0 < cmp data d then do
      let res ← deleteNode cmp data r
      let root ← rebalance (node d h l res.root)
      some ⟨root, res.bNodeDeleted, res.destroyed⟩
    -- `destroy` gets the data found, also when it is the successor's node that goes
    else do
      let found ← removeFound h l r
      let root ← rebalance found
      some ⟨root, true, [d]⟩

/-! ### The entry points -/

/-- `avl_tree_t`.  `user_free` appears as the list of the data it is called on. -/
structure AvlTree (α : Type*) where
  pRoot : AvlNode α
  count : Int
  cmp : α → α → Int

/-- `avl_create` with both functions given and its allocation succeeding. -/
def avlCreate (cmp : α → α → Int) : AvlTree α := ⟨null, 0, cmp⟩

/-- `avl_insert`: the count grows whatever `insert_node` did. -/
def avlInsert (calloc : Bool) (pTree : AvlTree α) (data : α) :
    Option (AvlTree α × ℕ) := do
  let (pRoot, k) ← insertNode pTree.cmp calloc data pTree.pRoot
  some ({ pTree with pRoot := pRoot, count := pTree.count + 1 }, k)

/-- `avl_delete_node`. -/
def avlDeleteNode (pTree : AvlTree α) (data : α) :
    Option (AvlTree α × Bool × List α) := do
  let res ← deleteNode pTree.cmp data pTree.pRoot
  let count := if res.bNodeDeleted then pTree.count - 1 else pTree.count
  some ({ pTree with pRoot := res.root, count := count }, res.bNodeDeleted, res.destroyed)

/-- `avl_search`. -/
def avlSearch (pTree : AvlTree α) (data : α) : Option α :=
  searchHelper pTree.cmp data pTree.pRoot

/-- A call of the library on one tree. -/
inductive AvlOp (α : Type*) where
  | insert (data : α)
  | delete (data : α)
  | search (data : α)

/-- What a call answers: the rotations of an insertion (which itself returns
nothing), the result of a deletion with its `user_free` calls, or the data found. -/
inductive AvlOut (α : Type*) where
  | inserted (rotations : ℕ)
  | deleted (bWasDeleteSuccess : Bool) (destroyed : List α)
  | found (result : Option α)
  deriving DecidableEq

/-- One call; `none` is a NULL dereference. -/
def avlStep (calloc : Bool) (s : AvlTree α) : AvlOp α → Option (AvlTree α × AvlOut α)
  | .insert data => (avlInsert calloc s data).map fun p => (p.1, .inserted p.2)
  | .delete data => (avlDeleteNode s data).map fun p => (p.1, .deleted p.2.1 p.2.2)
  | .search data => some (s, .found (avlSearch s data))

/-! ### The branches of the two repairs -/

section Branches

variable {cmp : α → α → Int} {data d ld rd : α} {h lh rh : Int}
  {l r ll lr rl rr : AvlNode α}

theorem insertFixLeft_of_ne (hh : height l - height r ≠ 2) :
    insertFixLeft cmp data (node d h l r) = some (node d h l r, 0) :=
  if_neg hh

theorem insertFixLeft_single (hh : lh - height r = 2) (hc : cmp data ld < 0) :
    insertFixLeft cmp data (node d h (node ld lh ll lr) r) =
      some (rotatePRight (node d h (node ld lh ll lr) r), 1) := by
  simp only [insertFixLeft, height_node, if_pos hh, if_pos hc]

theorem insertFixLeft_double (hh : lh - height r = 2) (hc : ¬ cmp data ld < 0) :
    insertFixLeft cmp data (node d h (node ld lh ll lr) r) =
      some (rotatePRight (node d h (rotatePLeft (node ld lh ll lr)) r), 1) := by
  simp only [insertFixLeft, height_node, if_pos hh, if_neg hc, rotatePLeftPRight,
    Option.map_some]

theorem insertFixRight_of_ne (hh : height r - height l ≠ 2) :
    insertFixRight cmp data (node d h l r) = some (node d h l r, 0) :=
  if_neg hh

theorem insertFixRight_single (hh : rh - height l = 2) (hc : 0 < cmp data rd) :
    insertFixRight cmp data (node d h l (node rd rh rl rr)) =
      some (rotatePLeft (node d h l (node rd rh rl rr)), 1) := by
  simp only [insertFixRight, height_node, if_pos hh, if_pos hc]

theorem insertFixRight_double (hh : rh - height l = 2) (hc : ¬ 0 < cmp data rd) :
    insertFixRight cmp data (node d h l (node rd rh rl rr)) =
      some (rotatePLeft (node d h l (rotatePRight (node rd rh rl rr))), 1) := by
  simp only [insertFixRight, height_node, if_pos hh, if_neg hc, rotatePRightPLeft]

theorem rebalance_balanced (hl : height l - height r ≤ 1) (hr : height r - height l ≤ 1) :
    rebalance (node d h l r) = some (node d (1 + max (height l) (height r)) l r) :=
  (if_neg (by omega)).trans (if_neg (by omega))

theorem rebalance_left_single (hh : 1 < lh - height r) (hc : height lr ≤ height ll) :
    rebalance (node d h (node ld lh ll lr) r) =
      some (rotatePRight (node d (1 + max lh (height r)) (node ld lh ll lr) r)) := by
  simp only [rebalance, height_node, if_pos hh, if_pos hc]

theorem rebalance_left_double (hh : 1 < lh - height r) (hc : ¬ height lr ≤ height ll) :
    rebalance (node d h (node ld lh ll lr) r) =
      some (rotatePRight
        (node d (1 + max lh (height r)) (rotatePLeft (node ld lh ll lr)) r)) := by
  simp only [rebalance, height_node, if_pos hh, if_neg hc]

theorem rebalance_right_single (hh : height l - rh < -1) (hc : height rl ≤ height rr) :
    rebalance (node d h l (node rd rh rl rr)) =
      some (rotatePLeft (node d (1 + max (height l) rh) l (node rd rh rl rr))) := by
  have hh' : ¬ 1 < height l - rh := by omega
  simp only [rebalance, height_node, if_neg hh', if_pos hh, if_pos hc]

theorem rebalance_right_double (hh : height l - rh < -1) (hc : ¬ height rl ≤ height rr) :
    rebalance (node d h l (node rd rh rl rr)) =
      some (rotatePLeft
        (node d (1 + max (height l) rh) l (rotatePRight (node rd rh rl rr)))) := by
  have hh' : ¬ 1 < height l - rh := by omega
  simp only [rebalance, height_node, if_neg hh', if_pos hh, if_neg hc]

end Branches

/-! ### What one call does -/

theorem avlStep_insert {calloc : Bool} {s s' : AvlTree α} {data : α} {o : AvlOut α} :
    avlStep calloc s (.insert data) = some (s', o) ↔
      ∃ t k, insertNode s.cmp calloc data s.pRoot = some (t, k) ∧
        s' = { s with pRoot := t, count := s.count + 1 } ∧ o = .inserted k := by
  rcases h : insertNode s.cmp calloc data s.pRoot with _ | ⟨t, k⟩ <;>
    simp [avlStep, avlInsert, h, eq_comm]

theorem avlStep_delete {calloc : Bool} {s s' : AvlTree α} {data : α} {o : AvlOut α} :
    avlStep calloc s (.delete data) = some (s', o) ↔
      ∃ res, deleteNode s.cmp data s.pRoot = some res ∧
        s' = { s with
          pRoot := res.root
          count := if res.bNodeDeleted then s.count - 1 else s.count } ∧
        o = .deleted res.bNodeDeleted res.destroyed := by
  rcases h : deleteNode s.cmp data s.pRoot with _ | res
  · simp [avlStep, avlDeleteNode, h]
  · simp only [avlStep, avlDeleteNode, h, Option.bind_eq_bind, Option.bind_some,
      Option.map_some, Option.some_inj, Prod.mk.injEq, exists_eq_left']
    exact and_congr eq_comm eq_comm

theorem avlStep_search {calloc : Bool} {s s' : AvlTree α} {data : α} {o : AvlOut α} :
    avlStep calloc s (.search data) = some (s', o) ↔
      s' = s ∧ o = .found (searchHelper s.cmp data s.pRoot) := by
  simp [avlStep, avlSearch, eq_comm]

end AvlTreeLib
