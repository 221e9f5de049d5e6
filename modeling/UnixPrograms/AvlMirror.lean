/-
Mirror images of the AVL tree functions.

The left and the right half of `avl_tree_lib.c` are mirror images of one
another: exchanging the children of every node and negating the comparator
turns `rotate_p_left` into `rotate_p_right`, the left repair of `insert_node`
into the right one, and `rebalance` into itself.  What is proved for the left
half then holds for the right half.
-/
import UnixPrograms.AvlTree

namespace AvlTreeLib

open AvlNode

variable {α : Type*}

/-- Exchange the children of every node. -/
def mirror : AvlNode α → AvlNode α
  | null => null
  | node d h l r => node d h (mirror r) (mirror l)

@[simp] theorem mirror_null : mirror (null : AvlNode α) = null := rfl

@[simp] theorem mirror_node (d : α) (h : Int) (l r : AvlNode α) :
    mirror (node d h l r) = node d h (mirror r) (mirror l) := rfl

@[simp] theorem mirror_mirror (t : AvlNode α) : mirror (mirror t) = t := by
  induction t with
  | null => rfl
  | node d h l r ihl ihr => rw [mirror_node, mirror_node, ihl, ihr]

@[simp] theorem height_mirror (t : AvlNode α) : height (mirror t) = height t := by
  cases t <;> rfl

theorem mirror_eq_null {t : AvlNode α} : mirror t = null ↔ t = null := by
  cases t <;> simp

@[simp] theorem avlInorderAction_mirror (t : AvlNode α) :
    avlInorderAction (mirror t) = (avlInorderAction t).reverse := by
  induction t with
  | null => rfl
  | node d h l r ihl ihr => simp [ihl, ihr]

/-- The comparator that orders the mirror image. -/
def flipCmp (cmp : α → α → Int) : α → α → Int := fun a b => -cmp a b

theorem mirror_rotatePRight (t : AvlNode α) :
    mirror (rotatePRight t) = rotatePLeft (mirror t) := by
  rcases t with _ | ⟨d, h, _ | ⟨ld, lh, ll, lr⟩, r⟩
  · rfl
  · cases r <;> rfl
  · simp [rotatePRight, rotatePLeft, max_comm]

theorem mirror_rotatePLeft (t : AvlNode α) :
    mirror (rotatePLeft t) = rotatePRight (mirror t) := by
  rw [← mirror_mirror (rotatePRight (mirror t)), mirror_rotatePRight, mirror_mirror]

theorem setHeight_mirror (t : AvlNode α) :
    setHeight (mirror t) = (setHeight t).map mirror := by
  cases t with
  | null => rfl
  | node d h l r => simp [setHeight, max_comm]

theorem insertFixRight_eq_mirror (cmp : α → α → Int) (data : α) (t : AvlNode α) :
    insertFixRight cmp data t =
      (insertFixLeft (flipCmp cmp) data (mirror t)).map fun p => (mirror p.1, p.2) := by
  rcases t with _ | ⟨d, h, l, r⟩
  · rfl
  · by_cases hh : height r - height l = 2
    · rcases r with _ | ⟨rd, rh, rl, rr⟩
      · have h1 : insertFixRight cmp data (node d h l null) = none := if_pos hh
        have h2 : insertFixLeft (flipCmp cmp) data (node d h null (mirror l)) = none :=
          if_pos (by rw [height_mirror]; exact hh)
        rw [h1, mirror_node, mirror_null, h2]
        rfl
      · rw [height_node] at hh
        have hh' : rh - height (mirror l) = 2 := by rw [height_mirror]; exact hh
        rw [mirror_node, mirror_node]
        by_cases hc : 0 < cmp data rd
        · rw [insertFixRight_single hh hc,
            insertFixLeft_single hh' (show -cmp data rd < 0 by omega)]
          simp [mirror_rotatePRight]
        · rw [insertFixRight_double hh hc,
            insertFixLeft_double hh' (show ¬ -cmp data rd < 0 by omega)]
          simp [mirror_rotatePRight, mirror_rotatePLeft]
    · rw [insertFixRight_of_ne hh, mirror_node, insertFixLeft_of_ne (by simpa using hh)]
      simp

theorem rebalance_mirror (t : AvlNode α) :
    rebalance (mirror t) = (rebalance t).map mirror := by
  rcases t with _ | ⟨d, h, l, r⟩
  · rfl
  · rw [mirror_node]
    by_cases hl : 1 < height l - height r
    · rcases l with _ | ⟨ld, lh, ll, lr⟩
      · have h1 : rebalance (node d h null r) = none := if_pos hl
        have h2 : rebalance (node d h (mirror r) null) = none :=
          (if_neg (by rw [height_mirror]; omega)).trans
            (if_pos (by rw [height_mirror]; omega))
        rw [h1, mirror_null, h2]
        rfl
      · rw [height_node] at hl
        have hl' : height (mirror r) - lh < -1 := by rw [height_mirror]; omega
        rw [mirror_node]
        by_cases hc : height lr ≤ height ll
        · rw [rebalance_left_single hl hc, rebalance_right_single hl' (by simpa using hc)]
          simp [mirror_rotatePRight, max_comm]
        · rw [rebalance_left_double hl hc, rebalance_right_double hl' (by simpa using hc)]
          simp [mirror_rotatePRight, mirror_rotatePLeft, max_comm]
    · by_cases hr : height l - height r < -1
      · rcases r with _ | ⟨rd, rh, rl, rr⟩
        · have h1 : rebalance (node d h l null) = none := (if_neg hl).trans (if_pos hr)
          have h2 : rebalance (node d h null (mirror l)) = none :=
            if_pos (by rw [height_mirror]; omega)
          rw [h1, mirror_null, h2]
          rfl
        · rw [height_node] at hr
          have hr' : 1 < rh - height (mirror l) := by rw [height_mirror]; omega
          rw [mirror_node]
          by_cases hc : height rl ≤ height rr
          · rw [rebalance_right_single hr hc, rebalance_left_single hr' (by simpa using hc)]
            simp [mirror_rotatePLeft, max_comm]
          · rw [rebalance_right_double hr hc, rebalance_left_double hr' (by simpa using hc)]
            simp [mirror_rotatePRight, mirror_rotatePLeft, max_comm]
      · rw [rebalance_balanced (by rw [height_mirror, height_mirror]; omega)
            (by rw [height_mirror, height_mirror]; omega),
          rebalance_balanced (by omega) (by omega)]
        simp [max_comm]

end AvlTreeLib
