/-
Heights and balance of the AVL tree.

`ValidAvl t` says of every node that its stored height is exact and that its
subtrees differ in height by at most one:

* `insertNode_valid` — insertion keeps it, and grows the tree by at most one;
* `deleteNode_valid_iff` — deletion keeps it exactly when `SuccessorEven`
  holds: `delete_node` splices the in-order successor out without measuring
  the nodes above it again, and gets away with it only when the successor's
  parent stays as high as it was;
* `avl_valid_iff` — the same for whole runs of the library.
-/
import UnixPrograms.AvlMirror
import UnixPrograms.OrderedList

namespace AvlTreeLib

open AvlNode Machine OrderedList

variable {α : Type*}

/-- The height of the tree, NULL counting as -1. -/
def trueHeight : AvlNode α → Int
  | null => -1
  | node _ _ l r => 1 + max (trueHeight l) (trueHeight r)

/-- Exact stored heights and balance at every node. -/
def ValidAvl : AvlNode α → Prop
  | null => True
  | node _ h l r =>
    h = 1 + max (trueHeight l) (trueHeight r) ∧
      |trueHeight l - trueHeight r| ≤ 1 ∧ ValidAvl l ∧ ValidAvl r

instance ValidAvl.instDecidable : ∀ t : AvlNode α, Decidable (ValidAvl t)
  | null => isTrue trivial
  | node _ _ l r =>
    have := ValidAvl.instDecidable l
    have := ValidAvl.instDecidable r
    inferInstanceAs (Decidable (_ ∧ _ ∧ ValidAvl l ∧ ValidAvl r))

theorem neg_one_le_trueHeight (t : AvlNode α) : -1 ≤ trueHeight t := by
  induction t with
  | null => exact le_refl _
  | node d h l r ihl ihr => rw [trueHeight]; omega

theorem ValidAvl.height_eq {t : AvlNode α} (ht : ValidAvl t) : height t = trueHeight t := by
  cases t with
  | null => rfl
  | node d h l r => exact ht.1

theorem ValidAvl.neg_one_le {t : AvlNode α} (ht : ValidAvl t) : -1 ≤ height t := by
  rw [ht.height_eq]
  exact neg_one_le_trueHeight t

@[simp] theorem validAvl_null : ValidAvl (null : AvlNode α) := trivial

/-- Validity in terms of the stored heights. -/
theorem validAvl_node {d : α} {h : Int} {l r : AvlNode α} :
    ValidAvl (node d h l r) ↔
      h = 1 + max (height l) (height r) ∧ height l - height r ≤ 1 ∧
        height r - height l ≤ 1 ∧ ValidAvl l ∧ ValidAvl r := by
  rw [ValidAvl, abs_le]
  constructor
  · rintro ⟨hh, hb, hl, hr⟩
    rw [hl.height_eq, hr.height_eq]
    exact ⟨hh, by omega, by omega, hl, hr⟩
  · rintro ⟨hh, hb1, hb2, hl, hr⟩
    rw [hl.height_eq, hr.height_eq] at hh hb1 hb2
    exact ⟨hh, by omega, hl, hr⟩

theorem validAvl_mirror {t : AvlNode α} : ValidAvl (mirror t) ↔ ValidAvl t := by
  induction t with
  | null => rfl
  | node d h l r ihl ihr =>
    rw [mirror_node, validAvl_node, validAvl_node, ihl, ihr, height_mirror, height_mirror,
      max_comm]
    tauto

/-! ### Insertion -/

/-- The root leans to the side on which `data` belongs. -/
def LeansTo (cmp : α → α → Int) (data : α) : AvlNode α → Prop
  | null => False
  | node d _ l r =>
    (cmp data d < 0 ∧ height l = height r + 1) ∨ (0 < cmp data d ∧ height r = height l + 1)

theorem leansTo_mirror {cmp : α → α → Int} {data : α} {t : AvlNode α} :
    LeansTo (flipCmp cmp) data (mirror t) ↔ LeansTo cmp data t := by
  cases t with
  | null => rfl
  | node d h l r =>
    simp only [mirror_node, LeansTo, height_mirror, flipCmp]
    omega

/-- The repair after an insertion on the left that grew the subtree by at most
one.  Without a rotation the height follows the children; with one it is what
it was before. -/
theorem insertFixLeft_valid (cmp : α → α → Int) (data : α) {d : α} {h : Int}
    {l r : AvlNode α}
    (hl : ValidAvl l) (hr : ValidAvl r) (hlo : height r ≤ height l + 1)
    (hhi : height l ≤ height r + 2)
    (hlean : height l = height r + 2 → LeansTo cmp data l) :
    ∃ p k t, insertFixLeft cmp data (node d h l r) = some (p, k) ∧ setHeight p = some t ∧
      ValidAvl t ∧
      (height l ≤ height r + 1 → t = node d (1 + max (height l) (height r)) l r) ∧
      (height l = height r + 2 → height t = height l) := by
  by_cases hh : height l - height r = 2
  · rcases l with _ | ⟨ld, lh, ll, lr⟩
    · have := hr.neg_one_le
      rw [height_null] at hh
      omega
    · rw [height_node] at hh hlo hhi hlean ⊢
      obtain ⟨hlh, hb1, hb2, hll, hlr⟩ := validAvl_node.mp hl
      -- the comparison and the heights agree on the side that is too high
      rcases hlean (by omega) with ⟨hc, hle⟩ | ⟨hc, hle⟩
      · rw [insertFixLeft_single hh hc]
        refine ⟨_, _, _, rfl, rfl, ?_, fun _ => by omega, fun _ => ?_⟩
        · simp only [validAvl_node, height_node]
          exact ⟨by omega, by omega, by omega, hll, by omega, by omega, by omega, hlr, hr⟩
        · simp only [height_node]; omega
      · rw [insertFixLeft_double hh (by omega)]
        rcases lr with _ | ⟨xd, xh, xl, xr⟩
        · have := hll.neg_one_le
          rw [height_null] at hle
          omega
        · obtain ⟨hxh, hx1, hx2, hxl, hxr⟩ := validAvl_node.mp hlr
          rw [height_node] at hlh hb1 hb2 hle
          refine ⟨_, _, _, rfl, rfl, ?_, fun _ => by omega, fun _ => ?_⟩
          · simp only [validAvl_node, height_node]
            exact ⟨by omega, by omega, by omega,
              ⟨by omega, by omega, by omega, hll, hxl⟩,
              by omega, by omega, by omega, hxr, hr⟩
          · simp only [height_node]; omega
  · rw [insertFixLeft_of_ne hh]
    refine ⟨_, _, _, rfl, rfl, ?_, fun _ => by rw [add_comm], fun _ => by omega⟩
    rw [validAvl_node]
    exact ⟨by omega, by omega, by omega, hl, hr⟩

theorem insertFixRight_valid (cmp : α → α → Int) (data : α) {d : α} {h : Int}
    {l r : AvlNode α}
    (hl : ValidAvl l) (hr : ValidAvl r) (hlo : height l ≤ height r + 1)
    (hhi : height r ≤ height l + 2)
    (hlean : height r = height l + 2 → LeansTo cmp data r) :
    ∃ p k t, insertFixRight cmp data (node d h l r) = some (p, k) ∧ setHeight p = some t ∧
      ValidAvl t ∧
      (height r ≤ height l + 1 → t = node d (1 + max (height l) (height r)) l r) ∧
      (height r = height l + 2 → height t = height r) := by
  obtain ⟨p, k, t, hfix, hset, ht, hbal, hrot⟩ :=
    insertFixLeft_valid (flipCmp cmp) data (d := d) (h := h)
      (validAvl_mirror.mpr hr) (validAvl_mirror.mpr hl) (by simpa using hlo)
      (by simpa using hhi) (by simpa [leansTo_mirror] using hlean)
  refine ⟨mirror p, k, mirror t, ?_, ?_, validAvl_mirror.mpr ht, ?_, ?_⟩
  · rw [insertFixRight_eq_mirror, mirror_node, hfix]
    rfl
  · rw [setHeight_mirror, hset]
    rfl
  · intro hle
    rw [hbal (by simpa using hle)]
    simp [max_comm]
  · simpa using hrot

/-- A subtree that has become two higher than its sibling has just grown, and leans. -/
theorem leansTo_of_grown {cmp : α → α → Int} {data : α} {t t' r : AvlNode α}
    (hgrow : height t' = height t ∨
      height t' = height t + 1 ∧ (t = null ∨ LeansTo cmp data t'))
    (hr : ValidAvl r) (hbal : height t ≤ height r + 1) (htwo : height t' = height r + 2) :
    LeansTo cmp data t' := by
  have hr0 := hr.neg_one_le
  rcases hgrow with hg | ⟨hg, rfl | hlean⟩
  · omega
  · rw [height_null] at hg
    omega
  · exact hlean

/-- Where a subtree of height `a` has grown to `a'` and the balance still holds, the
node over it is as high as before, or one higher and the subtree is the higher one. -/
theorem max_grow {a a' b h : Int} (hh : h = 1 + max a b) (hbal : a' ≤ b + 1)
    (hgrow : a' = a ∨ a' = a + 1) :
    1 + max a' b = h ∨ 1 + max a' b = h + 1 ∧ a' = b + 1 := by
  rcases hgrow with rfl | rfl
  · exact Or.inl hh.symm
  · rcases le_total b a with hle | hle
    · rw [max_eq_left hle] at hh
      rw [max_eq_left (by omega)]
      omega
    · rw [max_eq_right hle] at hh
      omega

/-- **Insertion keeps the tree valid** and makes it at most one higher, in
which case it leans to the side of the new element. -/
theorem insertNode_valid (cmp : α → α → Int) (data : α) {t : AvlNode α} (ht : ValidAvl t) :
    ∃ t' k, insertNode cmp true data t = some (t', k) ∧ ValidAvl t' ∧
      (height t' = height t ∨
        height t' = height t + 1 ∧ (t = null ∨ LeansTo cmp data t')) := by
  induction t with
  | null =>
    refine ⟨node data 0 null null, 0, rfl, ?_, Or.inr ⟨rfl, Or.inl rfl⟩⟩
    simp [validAvl_node]
  | node d h l r ihl ihr =>
    obtain ⟨hh, hb1, hb2, hl, hr⟩ := validAvl_node.mp ht
    have hl0 := hl.neg_one_le
    have hr0 := hr.neg_one_le
    by_cases hlt : cmp data d < 0
    · obtain ⟨l', k, hins, hl', hgrow⟩ := ihl hl
      have hlean : height l' = height r + 2 → LeansTo cmp data l' :=
        leansTo_of_grown hgrow hr (by omega)
      obtain ⟨p, k', t', hfix, hset, ht', hbal, hrot⟩ :=
        insertFixLeft_valid cmp data (d := d) (h := h) hl' hr (by omega) (by omega) hlean
      refine ⟨t', k + k', by simp [insertNode, hlt, hins, hfix, hset], ht', ?_⟩
      -- a rotation brings the height back
      by_cases h2 : height l' = height r + 2
      · have := hrot h2
        rw [height_node]
        omega
      · rw [hbal (by omega), height_node, height_node]
        have hle : height l' ≤ height r + 1 := by omega
        exact (max_grow hh hle (hgrow.imp_right And.left)).imp_right fun hone =>
          ⟨hone.1, Or.inr (Or.inl ⟨hlt, hone.2⟩)⟩
    · by_cases hgt : 0 < cmp data d
      · obtain ⟨r', k, hins, hr', hgrow⟩ := ihr hr
        have hlean : height r' = height l + 2 → LeansTo cmp data r' :=
          leansTo_of_grown hgrow hl (by omega)
        obtain ⟨p, k', t', hfix, hset, ht', hbal, hrot⟩ :=
          insertFixRight_valid cmp data (d := d) (h := h) hl hr' (by omega) (by omega) hlean
        refine ⟨t', k + k', by simp [insertNode, hlt, hgt, hins, hfix, hset], ht', ?_⟩
        by_cases h2 : height r' = height l + 2
        · have := hrot h2
          rw [height_node]
          omega
        · rw [hbal (by omega), height_node, height_node, max_comm]
          rw [max_comm] at hh
          have hle : height r' ≤ height l + 1 := by omega
          exact (max_grow hh hle (hgrow.imp_right And.left)).imp_right fun hone =>
            ⟨hone.1, Or.inr (Or.inr ⟨hgt, hone.2⟩)⟩
      · refine ⟨node d h l r, 0, ?_, ht, Or.inl rfl⟩
        simp [insertNode, hlt, hgt, setHeight, hh, add_comm]

/-! ### Deletion -/

theorem rebalance_left_valid {d : α} {h : Int} {l r : AvlNode α} (hl : ValidAvl l)
    (hr : ValidAvl r) (hh : height l = height r + 2) :
    ∃ t, rebalance (node d h l r) = some t ∧ ValidAvl t ∧
      height l ≤ height t ∧ height t ≤ height l + 1 := by
  rcases l with _ | ⟨ld, lh, ll, lr⟩
  · have := hr.neg_one_le
    rw [height_null] at hh
    omega
  · rw [height_node] at hh ⊢
    obtain ⟨hlh, hb1, hb2, hll, hlr⟩ := validAvl_node.mp hl
    by_cases hc : height lr ≤ height ll
    · refine ⟨_, rebalance_left_single (by omega) hc, ?_, ?_⟩
      · simp only [rotatePRight, validAvl_node, height_node]
        exact ⟨by omega, by omega, by omega, hll, by omega, by omega, by omega, hlr, hr⟩
      · simp only [rotatePRight, height_node]
        omega
    · rcases lr with _ | ⟨xd, xh, xl, xr⟩
      · have := hll.neg_one_le
        rw [height_null] at hc
        omega
      · obtain ⟨hxh, hx1, hx2, hxl, hxr⟩ := validAvl_node.mp hlr
        refine ⟨_, rebalance_left_double (by omega) hc, ?_, ?_⟩
        · rw [height_node] at hlh hb1 hb2 hc
          simp only [rotatePRight, rotatePLeft, validAvl_node, height_node]
          exact ⟨by omega, by omega, by omega,
            ⟨by omega, by omega, by omega, hll, hxl⟩,
            by omega, by omega, by omega, hxr, hr⟩
        · rw [height_node] at hlh hb1 hb2 hc
          simp only [rotatePRight, rotatePLeft, height_node]
          omega

/-- `rebalance` repairs a difference of two between valid subtrees; only then
may the tree become lower. -/
theorem rebalance_valid {d : α} {h : Int} {l r : AvlNode α} (hl : ValidAvl l)
    (hr : ValidAvl r) (hlo : height l ≤ height r + 2) (hhi : height r ≤ height l + 2) :
    ∃ t, rebalance (node d h l r) = some t ∧ ValidAvl t ∧
      (height l ≤ height r + 1 → height r ≤ height l + 1 →
        height t = max (height l) (height r) + 1) ∧
      max (height l) (height r) ≤ height t ∧ height t ≤ max (height l) (height r) + 1 := by
  by_cases h1 : height l = height r + 2
  · obtain ⟨t, hreb, ht, ht1, ht2⟩ := rebalance_left_valid (d := d) (h := h) hl hr h1
    exact ⟨t, hreb, ht, by omega, by omega, by omega⟩
  · by_cases h2 : height r = height l + 2
    · -- too high on the right: the left case, in the mirror
      obtain ⟨t, hreb, ht, ht1, ht2⟩ := rebalance_left_valid (d := d) (h := h)
        (validAvl_mirror.mpr hr) (validAvl_mirror.mpr hl) (by simpa using h2)
      rw [height_mirror] at ht1 ht2
      rw [← height_mirror t] at ht1 ht2
      refine ⟨mirror t, ?_, validAvl_mirror.mpr ht, by omega, by omega, by omega⟩
      rw [← mirror_mirror (node d h l r), rebalance_mirror, mirror_node, hreb]
      rfl
    · refine ⟨_, rebalance_balanced (by omega) (by omega), ?_, ?_⟩
      · rw [validAvl_node]
        exact ⟨rfl, by omega, by omega, hl, hr⟩
      · rw [height_node]
        omega

/-- In the right subtree of a node about to lose two children's parent: the
parent of the leftmost node has children of equal stored height, unless that
node is the root of the subtree. -/
def SuccessorEven : AvlNode α → Prop
  | null => True
  | node _ _ null _ => True
  | node _ _ (node _ lh null _) r => lh = height r
  | node _ _ (node ld lh (node lld llh lll llr) lr) _ =>
    SuccessorEven (node ld lh (node lld llh lll llr) lr)

instance SuccessorEven.instDecidable : ∀ t : AvlNode α, Decidable (SuccessorEven t)
  | null => isTrue trivial
  | node _ _ null _ => isTrue trivial
  | node _ _ (node _ lh null _) r => inferInstanceAs (Decidable (lh = height r))
  | node _ _ (node ld lh (node lld llh lll llr) lr) _ =>
    SuccessorEven.instDecidable (node ld lh (node lld llh lll llr) lr)

/-- Splicing the leftmost node out below the root leaves the stored height of
the root alone, so the result is valid exactly when its parent was even. -/
theorem spliceSuccessor_valid_iff {d : α} {h : Int} {l r : AvlNode α}
    (ht : ValidAvl (node d h l r)) (hl : l ≠ null) :
    ∃ t, spliceSuccessor (node d h l r) = some t ∧ height t = h ∧
      (ValidAvl t ↔ SuccessorEven (node d h l r)) := by
  induction l generalizing d h r with
  | null => exact absurd rfl hl
  | node ld lh ll lr ihl _ =>
    obtain ⟨hh, hb1, hb2, hvl, hvr⟩ := validAvl_node.mp ht
    rw [height_node] at hh hb1 hb2
    rcases ll with _ | ⟨lld, llh, lll, llr⟩
    · -- the leftmost node is the left child: its right subtree takes its place
      obtain ⟨hlh, hlb1, hlb2, -, hvlr⟩ := validAvl_node.mp hvl
      have hlr := hvlr.neg_one_le
      rw [height_null] at hlh hlb1 hlb2
      refine ⟨node d h lr r, rfl, rfl, ?_⟩
      rw [validAvl_node, SuccessorEven]
      constructor
      · rintro ⟨h1, h2, h3, -, -⟩
        omega
      · intro he
        exact ⟨by omega, by omega, by omega, hvlr, hvr⟩
    · -- further down, the stored height of the left child does not move
      obtain ⟨l', hsp, hheight, hiff⟩ := ihl hvl (by simp)
      refine ⟨node d h l' r, ?_, rfl, ?_⟩
      · rw [spliceSuccessor, hsp]
        rfl
      · rw [validAvl_node, hheight, hiff, SuccessorEven]
        exact ⟨fun h => h.2.2.2.1, fun he => ⟨hh, hb1, hb2, he, hvr⟩⟩

theorem successorData_isSome {d : α} {h : Int} {l r : AvlNode α} :
    ∃ s, successorData (node d h l r) = some s := by
  induction l generalizing d h r with
  | null => exact ⟨d, rfl⟩
  | node ld lh ll lr ihl _ => exact ihl

/-- The node to delete, when it has two children, has an even successor. -/
def DeleteEven (cmp : α → α → Int) (data : α) : AvlNode α → Prop
  | null => True
  | node d _ l r =>
    if cmp data d < 0 then DeleteEven cmp data l
    else if 0 < cmp data d then DeleteEven cmp data r
    else l ≠ null → SuccessorEven r

/-- Taking the found node out of a valid tree. -/
theorem removeFound_valid_iff {d : α} {h : Int} {l r : AvlNode α}
    (ht : ValidAvl (node d h l r)) :
    ∃ t t', removeFound h l r = some t ∧ rebalance t = some t' ∧
      (ValidAvl t' ↔ (l ≠ null → SuccessorEven r)) ∧
      (ValidAvl t' → h - 1 ≤ height t' ∧ height t' ≤ h) ∧
      (¬ ValidAvl t' → height t' = h) := by
  obtain ⟨hh, hb1, hb2, hl, hr⟩ := validAvl_node.mp ht
  have hl0 := hl.neg_one_le
  have hr0 := hr.neg_one_le
  -- an only child is already valid, and `rebalance` does not change it
  have keep : ∀ t : AvlNode α, ValidAvl t → rebalance t = some t := by
    intro t ht
    rcases t with _ | ⟨td, th, tl, tr⟩
    · rfl
    · obtain ⟨hth, ht1, ht2, -, -⟩ := validAvl_node.mp ht
      rw [rebalance_balanced ht1 ht2, ← hth]
  rcases l with _ | ⟨ld, lh, ll, lr⟩
  · rw [height_null] at hh hb1 hb2
    exact ⟨r, r, rfl, keep r hr, by simp [hr], fun _ => by omega, fun hn => absurd hr hn⟩
  · rcases r with _ | ⟨rd, rh, rl, rr⟩
    · rw [height_null] at hh hb1 hb2
      exact ⟨_, _, rfl, keep _ hl, by simp [hl, SuccessorEven], fun _ => by omega,
        fun hn => absurd hl hn⟩
    · obtain ⟨s, hs⟩ := successorData_isSome (d := rd) (h := rh) (l := rl) (r := rr)
      by_cases hrl : rl = null
      · -- the successor is the right child itself
        subst hrl
        obtain ⟨hrh, hr1, hr2, -, hrr⟩ := validAvl_node.mp hr
        rw [height_null] at hrh hr1 hr2
        rw [height_node rd] at hh hb1 hb2 hr0
        have hrr0 := hrr.neg_one_le
        obtain ⟨t', hreb, ht', h0, h1, h2⟩ :=
          rebalance_valid (d := s) (h := h) hl hrr (by omega) (by omega)
        refine ⟨_, t', ?_, hreb, by simp [ht', SuccessorEven], fun _ => by omega,
          fun hn => absurd ht' hn⟩
        simp [removeFound, hs, spliceSuccessor]
      · -- the right child stays, with its stored height: no rotation here
        obtain ⟨r', hsp, hheight, hiff⟩ := spliceSuccessor_valid_iff hr hrl
        rw [height_node rd] at hh hb1 hb2
        refine ⟨node s h (node ld lh ll lr) r', node s h (node ld lh ll lr) r', ?_, ?_, ?_,
          fun _ => by rw [height_node]; omega, fun _ => rfl⟩
        · simp [removeFound, hs, hsp]
        · rw [rebalance_balanced (by omega) (by omega), hheight, ← hh]
        · rw [validAvl_node, hheight, hiff]
          exact ⟨fun h _ => h.2.2.2.2, fun h => ⟨hh, hb1, hb2, hl, h (by simp)⟩⟩

/-- **Deletion keeps a valid tree valid exactly when the successor is even.**
A tree it damages keeps its stored height, so that no node above notices. -/
theorem deleteNode_valid_iff (cmp : α → α → Int) (data : α) {t : AvlNode α}
    (ht : ValidAvl t) :
    ∃ res, deleteNode cmp data t = some res ∧
      (ValidAvl res.root ↔ DeleteEven cmp data t) ∧
      (ValidAvl res.root → height t - 1 ≤ height res.root ∧ height res.root ≤ height t) ∧
      (¬ ValidAvl res.root → height res.root = height t) := by
  induction t with
  | null => exact ⟨_, rfl, by simp [DeleteEven], by simp, by simp⟩
  | node d h l r ihl ihr =>
    obtain ⟨hh, hb1, hb2, hl, hr⟩ := validAvl_node.mp ht
    by_cases hlt : cmp data d < 0
    · obtain ⟨res, hdel, hiff, hval, hbad⟩ := ihl hl
      by_cases hv : ValidAvl res.root
      · have := hval hv
        obtain ⟨t', hreb, ht', h0, h1, h2⟩ :=
          rebalance_valid (d := d) (h := h) hv hr (by omega) (by omega)
        have hb : h - 1 ≤ height t' ∧ height t' ≤ h := by omega
        refine ⟨⟨t', res.bNodeDeleted, res.destroyed⟩, by simp [deleteNode, hlt, hdel, hreb],
          ?_, fun _ => hb, fun hn => absurd ht' hn⟩
        simp [ht', DeleteEven, hlt, ← hiff, hv]
      · -- the damage below does not show in the height, so nothing is repaired
        have hsame := hbad hv
        have hreb : rebalance (node d h res.root r) = some (node d h res.root r) := by
          rw [rebalance_balanced (by omega) (by omega), hsame, ← hh]
        refine ⟨⟨node d h res.root r, res.bNodeDeleted, res.destroyed⟩,
          by simp [deleteNode, hlt, hdel, hreb], ?_,
          fun _ => by rw [height_node, height_node]; omega, fun _ => rfl⟩
        simp [validAvl_node, DeleteEven, hlt, ← hiff, hv]
    · by_cases hgt : 0 < cmp data d
      · obtain ⟨res, hdel, hiff, hval, hbad⟩ := ihr hr
        by_cases hv : ValidAvl res.root
        · have := hval hv
          obtain ⟨t', hreb, ht', h0, h1, h2⟩ :=
            rebalance_valid (d := d) (h := h) hl hv (by omega) (by omega)
          have hb : h - 1 ≤ height t' ∧ height t' ≤ h := by omega
          refine ⟨⟨t', res.bNodeDeleted, res.destroyed⟩,
            by simp [deleteNode, hlt, hgt, hdel, hreb],
            ?_, fun _ => hb, fun hn => absurd ht' hn⟩
          simp [ht', DeleteEven, hlt, hgt, ← hiff, hv]
        · have hsame := hbad hv
          have hreb : rebalance (node d h l res.root) = some (node d h l res.root) := by
            rw [rebalance_balanced (by omega) (by omega), hsame, ← hh]
          refine ⟨⟨node d h l res.root, res.bNodeDeleted, res.destroyed⟩,
            by simp [deleteNode, hlt, hgt, hdel, hreb], ?_,
            fun _ => by rw [height_node, height_node]; omega, fun _ => rfl⟩
          simp [validAvl_node, DeleteEven, hlt, hgt, ← hiff, hv]
      · obtain ⟨t, t', hrem, hreb, hiff, hval, hbad⟩ := removeFound_valid_iff ht
        refine ⟨⟨t', true, [d]⟩, by simp [deleteNode, hlt, hgt, hrem, hreb], ?_, hval, hbad⟩
        rw [hiff, DeleteEven, if_neg hlt, if_neg hgt]

/-! ### Runs of the library -/

/-- The call is not a deletion that splices out an uneven successor. -/
def StepEven (s : AvlTree α) : AvlOp α → Prop
  | .delete data => DeleteEven s.cmp data s.pRoot
  | _ => True

theorem avlStep_valid_iff (s : AvlTree α) (op : AvlOp α) (hs : ValidAvl s.pRoot) :
    (∃ s' o, avlStep true s op = some (s', o) ∧ ValidAvl s'.pRoot) ↔ StepEven s op := by
  cases op with
  | insert data =>
    obtain ⟨t, k, hins, ht, -⟩ := insertNode_valid s.cmp data hs
    exact ⟨fun _ => trivial, fun _ => ⟨_, _, avlStep_insert.mpr ⟨t, k, hins, rfl, rfl⟩, ht⟩⟩
  | delete data =>
    obtain ⟨res, hdel, hiff, -, -⟩ := deleteNode_valid_iff s.cmp data hs
    constructor
    · rintro ⟨s', o, hstep, hv⟩
      obtain ⟨res', hdel', rfl, -⟩ := avlStep_delete.mp hstep
      cases hdel.symm.trans hdel'
      exact hiff.mp hv
    · intro he
      exact ⟨_, _, avlStep_delete.mpr ⟨res, hdel, rfl, rfl⟩, hiff.mpr he⟩
  | search data =>
    exact ⟨fun _ => trivial, fun _ => ⟨_, _, avlStep_search.mpr ⟨rfl, rfl⟩, hs⟩⟩

/-- **Runs that keep the tree an AVL tree.**  From a fresh tree, every call of
a run leaves a valid AVL tree exactly when no deletion of the run splices out
a successor whose parent is uneven. -/
theorem avl_valid_iff (cmp : α → α → Int) (ops : List (AvlOp α)) :
    RunsWith (avlStep true) (fun _ _ s' _ => ValidAvl s'.pRoot) (avlCreate cmp) ops ↔
      RunMeets (avlStep true) StepEven (avlCreate cmp) ops :=
  runsWith_iff_runMeets (fun s : AvlTree α => ValidAvl s.pRoot) avlStep_valid_iff
    (fun _ _ _ _ _ _ hv => hv) validAvl_null

/-- Deleting 50 moves 60 up and leaves the node of 70 with stored height 1,
although it is now a leaf. -/
theorem avl_stale_height :
    TotalPreorder intCmp ∧
      ¬ RunsWith (avlStep true) (fun _ _ s' _ => ValidAvl s'.pRoot) (avlCreate intCmp)
        [.insert 50, .insert 20, .insert 70, .insert 60, .delete 50] :=
  ⟨intCmp_totalPreorder, by decide⟩

end AvlTreeLib
