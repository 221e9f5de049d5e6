/-
The recursive traversals of the AVL tree.

`avl_pre_order` and `avl_post_order` hand the data to the user function in an
order of their own; `destroy_avl_node` is a third recursion, which frees a node
after both its subtrees:

* `preOrder_perm`, `postOrder_perm` — each of them meets every node once;
* `sameShape_of_preOrder`, `sameShape_of_postOrder` — on trees in search order
  the data of one traversal already say where each of them is in the tree;
* `traversals_determine` — so a search tree can be told from the calls of either
  traversal, and a valid one with its stored heights.
-/
import UnixPrograms.AvlHeight

namespace AvlTreeLib

open AvlNode OrderedList

variable {α : Type*}

/-! ### The code -/

/-- `avl_pre_order_action`: the data in the order `user_func` is called on it. -/
def avlPreOrderAction : AvlNode α → List α
  | null => []
  | node d _ l r => d :: (avlPreOrderAction l ++ avlPreOrderAction r)

/-- `avl_post_order_action`. -/
def avlPostOrderAction : AvlNode α → List α
  | null => []
  | node d _ l r => avlPostOrderAction l ++ (avlPostOrderAction r ++ [d])

/-- What a traversal does for its user: the calls of `user_func`, and what it
prints itself when it is done. -/
structure Traversal (α : Type*) where
  calls : List α
  printed : String

/-- `avl_inorder`, for a tree and a function that are not NULL. -/
def avlInorder (pTree : AvlTree α) : Traversal α := ⟨avlInorderAction pTree.pRoot, ""⟩

/-- `avl_pre_order`. -/
def avlPreOrder (pTree : AvlTree α) : Traversal α := ⟨avlPreOrderAction pTree.pRoot, "\n"⟩

/-- `avl_post_order`. -/
def avlPostOrder (pTree : AvlTree α) : Traversal α := ⟨avlPostOrderAction pTree.pRoot, "\n"⟩

/-- `destroy_avl_node`: the data of its `user_destroy` calls.  Each of them is
followed by the `free` of its node. -/
def destroyAvlNode : AvlNode α → List α
  | null => []
  | node d _ l r =>
    let left := destroyAvlNode l
    let right := destroyAvlNode r
    left ++ right ++ [d]

/-! ### Every node once -/

theorem preOrder_perm (t : AvlNode α) : (avlPreOrderAction t).Perm (avlInorderAction t) := by
  induction t with
  | null => exact List.Perm.refl _
  | node d h l r ihl ihr => exact ((ihl.append ihr).cons d).trans List.perm_middle.symm

theorem postOrder_perm (t : AvlNode α) : (avlPostOrderAction t).Perm (avlInorderAction t) := by
  induction t with
  | null => exact List.Perm.refl _
  | node d h l r ihl ihr =>
    refine ihl.append ?_
    exact (List.perm_append_singleton d _).trans (ihr.cons d)

/-- A node is freed after its subtrees. -/
theorem destroyAvlNode_eq (t : AvlNode α) : destroyAvlNode t = avlPostOrderAction t := by
  induction t with
  | null => rfl
  | node d h l r ihl ihr =>
    rw [destroyAvlNode, ihl, ihr, avlPostOrderAction, List.append_assoc]

theorem destroyAvlNode_perm (t : AvlNode α) :
    (destroyAvlNode t).Perm (avlInorderAction t) := by
  rw [destroyAvlNode_eq]
  exact postOrder_perm t

/-! ### The tree in the order of its data -/

/-- The same data in the same places, whatever the stored heights. -/
def SameShape : AvlNode α → AvlNode α → Prop
  | null, null => True
  | node d _ l r, node d' _ l' r' => d = d' ∧ SameShape l l' ∧ SameShape r r'
  | _, _ => False

theorem SameShape.eq_of_valid {t u : AvlNode α} (h : SameShape t u) (ht : ValidAvl t)
    (hu : ValidAvl u) : t = u := by
  induction t generalizing u with
  | null =>
    cases u with
    | null => rfl
    | node => exact absurd h not_false
  | node d th l r ihl ihr =>
    cases u with
    | null => exact absurd h not_false
    | node d' uh l' r' =>
      obtain ⟨rfl, hl, hr⟩ := h
      obtain ⟨rfl, -, hvl, hvr⟩ := ht
      obtain ⟨rfl, -, hvl', hvr'⟩ := hu
      rw [ihl hl hvl hvl', ihr hr hvr hvr']

theorem length_preOrder (t : AvlNode α) :
    (avlPreOrderAction t).length = (avlInorderAction t).length :=
  (preOrder_perm t).length_eq

theorem length_postOrder (t : AvlNode α) :
    (avlPostOrderAction t).length = (avlInorderAction t).length :=
  (postOrder_perm t).length_eq

/-- A root that is stored once splits the in-order data in one way only. -/
theorem split_at_root {d : α} {ls rs ls' rs' : List α} (h : (ls ++ d :: rs).Nodup)
    (heq : ls ++ d :: rs = ls' ++ d :: rs') : ls = ls' ∧ rs = rs' := by
  have hd : d ∉ ls ++ rs := (List.nodup_cons.mp (List.nodup_middle.mp h)).1
  rw [List.mem_append, not_or] at hd
  obtain ⟨hls, -, hrs⟩ := (List.append_cons_inj_of_notMem hd.1 hd.2).mp heq
  exact ⟨hls, hrs⟩

/-- **In-order and pre-order data** that are stored once each have one shape. -/
theorem sameShape_of_preOrder {t u : AvlNode α} (hn : (avlInorderAction t).Nodup)
    (hin : avlInorderAction t = avlInorderAction u)
    (hpre : avlPreOrderAction t = avlPreOrderAction u) : SameShape t u := by
  induction t generalizing u with
  | null =>
    cases u with
    | null => trivial
    | node => exact absurd hpre (by simp [avlPreOrderAction])
  | node d th l r ihl ihr =>
    cases u with
    | null => exact absurd hpre (by simp [avlPreOrderAction])
    | node d' uh l' r' =>
      rw [avlPreOrderAction, avlPreOrderAction, List.cons.injEq] at hpre
      obtain ⟨rfl, hpre⟩ := hpre
      rw [avlInorderAction_node] at hin hn
      rw [avlInorderAction_node] at hin
      obtain ⟨hl, hr⟩ := split_at_root hn hin
      -- the left subtree has as many nodes as there are data before the root
      have hlen : (avlPreOrderAction l).length = (avlPreOrderAction l').length := by
        rw [length_preOrder, length_preOrder, hl]
      obtain ⟨hpl, hpr⟩ := List.append_inj hpre hlen
      rw [List.nodup_append] at hn
      exact ⟨rfl, ihl hn.1 hl hpl, ihr (List.nodup_cons.mp hn.2.1).2 hr hpr⟩

/-- **In-order and post-order data** that are stored once each have one shape. -/
theorem sameShape_of_postOrder {t u : AvlNode α} (hn : (avlInorderAction t).Nodup)
    (hin : avlInorderAction t = avlInorderAction u)
    (hpost : avlPostOrderAction t = avlPostOrderAction u) : SameShape t u := by
  induction t generalizing u with
  | null =>
    cases u with
    | null => trivial
    | node => exact absurd hpost (by simp [avlPostOrderAction])
  | node d th l r ihl ihr =>
    cases u with
    | null => exact absurd hpost (by simp [avlPostOrderAction])
    | node d' uh l' r' =>
      rw [avlPostOrderAction, avlPostOrderAction, ← List.append_assoc, ← List.append_assoc]
        at hpost
      obtain ⟨hsub, hd⟩ := List.append_inj' hpost rfl
      obtain rfl : d = d' := by simpa using hd
      rw [avlInorderAction_node] at hin hn
      rw [avlInorderAction_node] at hin
      obtain ⟨hl, hr⟩ := split_at_root hn hin
      have hlen : (avlPostOrderAction l).length = (avlPostOrderAction l').length := by
        rw [length_postOrder, length_postOrder, hl]
      obtain ⟨hpl, hpr⟩ := List.append_inj hsub hlen
      rw [List.nodup_append] at hn
      exact ⟨rfl, ihl hn.1 hl hpl, ihr (List.nodup_cons.mp hn.2.1).2 hr hpr⟩

/-! ### Search trees -/

section SearchTrees

variable {cmp : α → α → Int} {s s' : AvlTree α}

/-- **The calls of a traversal** say which tree it was: two search trees on which
`avl_pre_order`, or on which `avl_post_order`, makes the same calls have the same
data in the same places, stale heights or not, and valid ones are equal. -/
theorem traversals_determine (hc : TotalPreorder cmp)
    (hs : Increasing cmp (avlInorderAction s.pRoot))
    (hs' : Increasing cmp (avlInorderAction s'.pRoot))
    (h : avlPreOrder s = avlPreOrder s' ∨ avlPostOrder s = avlPostOrder s') :
    SameShape s.pRoot s'.pRoot ∧
      (ValidAvl s.pRoot → ValidAvl s'.pRoot → s.pRoot = s'.pRoot) := by
  have hshape : SameShape s.pRoot s'.pRoot := by
    rcases h with h | h
    · have hcalls : avlPreOrderAction s.pRoot = avlPreOrderAction s'.pRoot :=
        congrArg Traversal.calls h
      have hperm := preOrder_perm s'.pRoot
      rw [← hcalls] at hperm
      have hin := hs.eq_of_perm hc hs' ((preOrder_perm s.pRoot).symm.trans hperm)
      exact sameShape_of_preOrder (hs.nodup hc) hin hcalls
    · have hcalls : avlPostOrderAction s.pRoot = avlPostOrderAction s'.pRoot :=
        congrArg Traversal.calls h
      have hperm := postOrder_perm s'.pRoot
      rw [← hcalls] at hperm
      have hin := hs.eq_of_perm hc hs' ((postOrder_perm s.pRoot).symm.trans hperm)
      exact sameShape_of_postOrder (hs.nodup hc) hin hcalls
  exact ⟨hshape, hshape.eq_of_valid⟩

/-- Two trees with a stale height in one of them. -/
theorem traversals_determine_stale :
    SameShape (node (2 : Int) 5 (node 1 0 null null) (node 3 0 null null))
        (node 2 1 (node 1 0 null null) (node 3 0 null null)) ∧
      (ValidAvl (node (2 : Int) 5 (node 1 0 null null) (node 3 0 null null)) →
        ValidAvl (node (2 : Int) 1 (node 1 0 null null) (node 3 0 null null)) →
        node (2 : Int) 5 (node 1 0 null null) (node 3 0 null null) =
          node 2 1 (node 1 0 null null) (node 3 0 null null)) :=
  @traversals_determine Int intCmp
    ⟨node 2 5 (node 1 0 null null) (node 3 0 null null), 3, intCmp⟩
    ⟨node 2 1 (node 1 0 null null) (node 3 0 null null), 3, intCmp⟩
    intCmp_totalPreorder (by simp [Increasing, intCmp]) (by simp [Increasing, intCmp])
    (Or.inl rfl)

end SearchTrees

end AvlTreeLib
