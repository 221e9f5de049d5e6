/-
What the AVL tree functions do to the contents of a tree.

Stored heights may be stale here; it is enough that none is negative
(`HeightsNonneg`).  On such a tree in search order:

* `insertNode_contents` — insertion is sorted insertion, unless it meets
  `DupPivot`: a duplicate below a node whose stored heights ask for a double
  rotation that has no grandchild to pivot on (`insertNode_dupPivot`);
* `deleteNode_contents` — deletion is sorted deletion, with one `user_free`;
* `searchHelper_eq_some` — search finds the element that compares equal.
-/
import UnixPrograms.AvlMirror
import UnixPrograms.OrderedList

namespace AvlTreeLib

open AvlNode OrderedList

variable {α : Type*}

/-- No stored height is negative. -/
def HeightsNonneg : AvlNode α → Prop
  | null => True
  | node _ h l r => 0 ≤ h ∧ HeightsNonneg l ∧ HeightsNonneg r

theorem HeightsNonneg.neg_one_le {t : AvlNode α} (ht : HeightsNonneg t) : -1 ≤ height t := by
  cases t with
  | null => exact le_refl _
  | node d h l r =>
    have := ht.1
    rw [height_node]
    omega

theorem heightsNonneg_mirror {t : AvlNode α} : HeightsNonneg (mirror t) ↔ HeightsNonneg t := by
  induction t with
  | null => rfl
  | node d h l r ihl ihr =>
    rw [mirror_node, HeightsNonneg, HeightsNonneg, ihl, ihr]
    tauto

/-- A node whose height was just computed from its children. -/
theorem heightsNonneg_of_children {d : α} {h : Int} {l r : AvlNode α} (hl : HeightsNonneg l)
    (hr : HeightsNonneg r) (hh : h = max (height l) (height r) + 1) :
    HeightsNonneg (node d h l r) := by
  have := hl.neg_one_le
  exact ⟨by omega, hl, hr⟩

/-! ### Insertion -/

/-- If the root compares equal to `data`, it has two children. -/
def RootSplit (cmp : α → α → Int) (data : α) : AvlNode α → Prop
  | null => True
  | node d _ l r => cmp data d = 0 → l ≠ null ∧ r ≠ null

theorem rootSplit_mirror {cmp : α → α → Int} {data : α} {t : AvlNode α} :
    RootSplit (flipCmp cmp) data (mirror t) ↔ RootSplit cmp data t := by
  cases t with
  | null => rfl
  | node d h l r =>
    simp only [mirror_node, RootSplit, flipCmp, neg_eq_zero, ne_eq, mirror_eq_null]
    tauto

/-- The repair on the left, when the double rotation has its pivot. -/
theorem insertFixLeft_contents (cmp : α → α → Int) (data : α) {d : α} {h : Int}
    {l r : AvlNode α} (hl : HeightsNonneg l) (hr : HeightsNonneg r) (hlt : cmp data d < 0)
    (hpivot : ∀ ld lh ll, l = node ld lh ll null → lh = height r + 2 → cmp data ld < 0) :
    ∃ p k t, insertFixLeft cmp data (node d h l r) = some (p, k) ∧ setHeight p = some t ∧
      HeightsNonneg t ∧ RootSplit cmp data t ∧
      avlInorderAction t = avlInorderAction l ++ d :: avlInorderAction r := by
  have hr0 := hr.neg_one_le
  by_cases hh : height l - height r = 2
  · rcases l with _ | ⟨ld, lh, ll, lr⟩
    · rw [height_null] at hh
      omega
    · rw [height_node] at hh
      -- which rotation is decided by the comparison alone, heights or not
      by_cases hc : cmp data ld < 0
      · refine ⟨_, _, _, insertFixLeft_single hh hc, rfl, ?_, ?_, ?_⟩
        · exact heightsNonneg_of_children hl.2.1
            (heightsNonneg_of_children hl.2.2 hr rfl) rfl
        · intro h0
          omega
        · simp
      · rcases lr with _ | ⟨xd, xh, xl, xr⟩
        · exact absurd (hpivot ld lh ll rfl (by omega)) hc
        · obtain ⟨-, hll, -, hxl, hxr⟩ := hl
          refine ⟨_, _, _, insertFixLeft_double hh hc, rfl, ?_, ?_, ?_⟩
          · exact heightsNonneg_of_children (heightsNonneg_of_children hll hxl rfl)
              (heightsNonneg_of_children hxr hr rfl) rfl
          · intro _
            exact ⟨by simp, by simp⟩
          · simp
  · refine ⟨_, _, _, insertFixLeft_of_ne hh, rfl, heightsNonneg_of_children hl hr rfl, ?_, rfl⟩
    intro h0
    omega

theorem insertFixRight_contents (cmp : α → α → Int) (data : α) {d : α} {h : Int}
    {l r : AvlNode α} (hl : HeightsNonneg l) (hr : HeightsNonneg r) (hgt : 0 < cmp data d)
    (hpivot : ∀ rd rh rr, r = node rd rh null rr → rh = height l + 2 → 0 < cmp data rd) :
    ∃ p k t, insertFixRight cmp data (node d h l r) = some (p, k) ∧ setHeight p = some t ∧
      HeightsNonneg t ∧ RootSplit cmp data t ∧
      avlInorderAction t = avlInorderAction l ++ d :: avlInorderAction r := by
  have hpivot' : ∀ ld lh ll, mirror r = node ld lh ll null → lh = height (mirror l) + 2 →
      flipCmp cmp data ld < 0 := by
    intro ld lh ll hm hlh
    rw [height_mirror] at hlh
    have hr' : r = node ld lh null (mirror ll) := by
      rw [← mirror_mirror r, hm]
      rfl
    have := hpivot ld lh (mirror ll) hr' hlh
    simp only [flipCmp]
    omega
  obtain ⟨p, k, t, hfix, hset, ht, hsplit, hin⟩ :=
    insertFixLeft_contents (flipCmp cmp) data (d := d) (h := h)
      (heightsNonneg_mirror.mpr hr) (heightsNonneg_mirror.mpr hl)
      (by simp only [flipCmp]; omega) hpivot'
  refine ⟨mirror p, k, mirror t, ?_, ?_, heightsNonneg_mirror.mpr ht, ?_, ?_⟩
  · rw [insertFixRight_eq_mirror, mirror_node, hfix]
    rfl
  · rw [setHeight_mirror, hset]
    rfl
  · rwa [← rootSplit_mirror, mirror_mirror]
  · rw [avlInorderAction_mirror, hin]
    simp

/-- The left child compares equal to `data`, has no right child, and is two
higher than its sibling `r` once its own height is computed again. -/
def LeftDup (cmp : α → α → Int) (data : α) (r : AvlNode α) : AvlNode α → Prop
  | null => False
  | node ld _ ll lr => cmp data ld = 0 ∧ lr = null ∧ height ll + 1 = height r + 2

/-- The mirror image of `LeftDup`. -/
def RightDup (cmp : α → α → Int) (data : α) (l : AvlNode α) : AvlNode α → Prop
  | null => False
  | node rd _ rl rr => cmp data rd = 0 ∧ rl = null ∧ height rr + 1 = height l + 2

/-- On the way to `data` there is a node with such a child: the double rotation
that the stored heights ask for then has nothing to pivot on. -/
def DupPivot (cmp : α → α → Int) (data : α) : AvlNode α → Prop
  | null => False
  | node d _ l r =>
    if cmp data d < 0 then DupPivot cmp data l ∨ LeftDup cmp data r l
    else if 0 < cmp data d then DupPivot cmp data r ∨ RightDup cmp data l r
    else False

instance LeftDup.instDecidable [DecidableEq α] (cmp : α → α → Int) (data : α)
    (r : AvlNode α) : ∀ l : AvlNode α, Decidable (LeftDup cmp data r l)
  | null => isFalse not_false
  | node ld _ ll lr =>
    inferInstanceAs (Decidable (cmp data ld = 0 ∧ lr = null ∧ height ll + 1 = height r + 2))

instance RightDup.instDecidable [DecidableEq α] (cmp : α → α → Int) (data : α)
    (l : AvlNode α) : ∀ r : AvlNode α, Decidable (RightDup cmp data l r)
  | null => isFalse not_false
  | node rd _ rl rr =>
    inferInstanceAs (Decidable (cmp data rd = 0 ∧ rl = null ∧ height rr + 1 = height l + 2))

instance DupPivot.instDecidable [DecidableEq α] (cmp : α → α → Int) (data : α) :
    ∀ t : AvlNode α, Decidable (DupPivot cmp data t)
  | null => isFalse not_false
  | node d _ l r =>
    have := DupPivot.instDecidable cmp data l
    have := DupPivot.instDecidable cmp data r
    inferInstanceAs (Decidable
      (if cmp data d < 0 then DupPivot cmp data l ∨ LeftDup cmp data r l
        else if 0 < cmp data d then DupPivot cmp data r ∨ RightDup cmp data l r
        else False))

/-- At a node that compares equal, `insert_node` only computes the height again. -/
theorem insertNode_self {cmp : α → α → Int} {calloc : Bool} {data d : α} {h : Int}
    {l r : AvlNode α} (h0 : cmp data d = 0) :
    insertNode cmp calloc data (node d h l r) =
      some (node d (max (height l) (height r) + 1) l r, 0) := by
  simp [insertNode, h0, setHeight]

/-- In a tree that holds an element equal to `data`, a split root without a right
child is beyond `data`: the element is not at the root, so it is on the left. -/
theorem lt_of_rootSplit {cmp : α → α → Int} (hc : TotalPreorder cmp) {data d : α} {h : Int}
    {l : AvlNode α} (hinc : Increasing cmp (avlInorderAction (node d h l null)))
    (hex : ∃ y ∈ avlInorderAction (node d h l null), cmp data y = 0)
    (hsplit : RootSplit cmp data (node d h l null)) : cmp data d < 0 := by
  obtain ⟨y, hy, hy0⟩ := hex
  have hne : cmp data d ≠ 0 := fun h0 => (hsplit h0).2 rfl
  rw [avlInorderAction_node] at hinc hy
  obtain ⟨-, -, hlt, -⟩ := (increasing_append_cons hc).mp hinc
  by_contra hge
  obtain hy | hy := List.mem_append.mp hy
  · have := hc.pos_of_lt (x := data) (by omega) hlt y hy
    omega
  · obtain rfl | hy := List.mem_cons.mp hy
    · exact hne hy0
    · simp at hy

theorem gt_of_rootSplit {cmp : α → α → Int} (hc : TotalPreorder cmp) {data d : α} {h : Int}
    {r : AvlNode α} (hinc : Increasing cmp (avlInorderAction (node d h null r)))
    (hex : ∃ y ∈ avlInorderAction (node d h null r), cmp data y = 0)
    (hsplit : RootSplit cmp data (node d h null r)) : 0 < cmp data d := by
  obtain ⟨y, hy, hy0⟩ := hex
  have hne : cmp data d ≠ 0 := fun h0 => (hsplit h0).1 rfl
  rw [avlInorderAction_node] at hinc hy
  obtain ⟨-, -, -, hgt⟩ := (increasing_append_cons hc).mp hinc
  by_contra hle
  obtain hy | hy := List.mem_append.mp hy
  · simp at hy
  · obtain rfl | hy := List.mem_cons.mp hy
    · exact hne hy0
    · have := hc.lt_trans (show cmp data d < 0 by omega) (hgt y hy)
      omega

/-- Insertion on the left leaves a pivot for the double rotation. -/
theorem insertNode_pivot_left {cmp : α → α → Int} (hc : TotalPreorder cmp) {data : α}
    {l l' r : AvlNode α} {k : ℕ} (hl : HeightsNonneg l) (hr : HeightsNonneg r)
    (hinc : Increasing cmp (avlInorderAction l))
    (hins : insertNode cmp true data l = some (l', k))
    (hin : avlInorderAction l' = insertSorted cmp data (avlInorderAction l))
    (hsplit : (∀ d h a b, l = node d h a b → cmp data d ≠ 0) → l ≠ null →
      RootSplit cmp data l')
    (hdup : ∀ ld lh ll, l = node ld lh ll null → cmp data ld = 0 →
      height ll + 1 ≠ height r + 2) :
    ∀ ld lh ll, l' = node ld lh ll null → lh = height r + 2 → cmp data ld < 0 := by
  rintro ld lh ll rfl hlh
  have hr0 := hr.neg_one_le
  rcases l with _ | ⟨d, h, a, b⟩
  · -- a fresh leaf has height 0
    cases hins
    omega
  · by_cases h0 : cmp data d = 0
    · rw [insertNode_self h0] at hins
      cases hins
      have ha0 := hl.2.1.neg_one_le
      rw [height_null] at hlh
      exact absurd (show _ by omega) (hdup _ _ _ rfl h0)
    · refine lt_of_rootSplit hc ?_ ?_ (hsplit (by rintro _ _ _ _ ⟨⟩; exact h0) (by simp))
      · rw [hin]
        exact increasing_insertSorted hc hinc
      · rw [hin]
        exact exists_zero_insertSorted hc data _

theorem insertNode_pivot_right {cmp : α → α → Int} (hc : TotalPreorder cmp) {data : α}
    {l r r' : AvlNode α} {k : ℕ} (hl : HeightsNonneg l) (hr : HeightsNonneg r)
    (hinc : Increasing cmp (avlInorderAction r))
    (hins : insertNode cmp true data r = some (r', k))
    (hin : avlInorderAction r' = insertSorted cmp data (avlInorderAction r))
    (hsplit : (∀ d h a b, r = node d h a b → cmp data d ≠ 0) → r ≠ null →
      RootSplit cmp data r')
    (hdup : ∀ rd rh rr, r = node rd rh null rr → cmp data rd = 0 →
      height rr + 1 ≠ height l + 2) :
    ∀ rd rh rr, r' = node rd rh null rr → rh = height l + 2 → 0 < cmp data rd := by
  rintro rd rh rr rfl hrh
  have hl0 := hl.neg_one_le
  rcases r with _ | ⟨d, h, a, b⟩
  · cases hins
    omega
  · by_cases h0 : cmp data d = 0
    · rw [insertNode_self h0] at hins
      cases hins
      have hb0 := hr.2.2.neg_one_le
      rw [height_null] at hrh
      exact absurd (show _ by omega) (hdup _ _ _ rfl h0)
    · refine gt_of_rootSplit hc ?_ ?_ (hsplit (by rintro _ _ _ _ ⟨⟩; exact h0) (by simp))
      · rw [hin]
        exact increasing_insertSorted hc hinc
      · rw [hin]
        exact exists_zero_insertSorted hc data _

/-- **Insertion is sorted insertion**, duplicates included, on any tree in
search order that is not a `DupPivot` for the new element. -/
theorem insertNode_contents {cmp : α → α → Int} (hc : TotalPreorder cmp) (data : α)
    {t : AvlNode α} (ht : HeightsNonneg t) (hinc : Increasing cmp (avlInorderAction t))
    (hdup : ¬ DupPivot cmp data t) :
    ∃ t' k, insertNode cmp true data t = some (t', k) ∧ HeightsNonneg t' ∧
      avlInorderAction t' = insertSorted cmp data (avlInorderAction t) ∧
      ((∀ d h a b, t = node d h a b → cmp data d ≠ 0) → t ≠ null →
        RootSplit cmp data t') := by
  induction t with
  | null =>
    exact ⟨node data 0 null null, 0, rfl, ⟨le_refl _, trivial, trivial⟩, rfl,
      fun _ h => absurd rfl h⟩
  | node d h l r ihl ihr =>
    obtain ⟨-, hl, hr⟩ := ht
    rw [avlInorderAction_node] at hinc ⊢
    obtain ⟨hil, hir, hld, hdr⟩ := (increasing_append_cons hc).mp hinc
    by_cases hlt : cmp data d < 0
    · rw [DupPivot, if_pos hlt, not_or] at hdup
      obtain ⟨l', k, hins, hl', hin, hsplit⟩ := ihl hl hil hdup.1
      have hpivot := insertNode_pivot_left hc hl hr hil hins hin hsplit (by
        rintro ld lh ll rfl h0 hh
        exact hdup.2 ⟨h0, rfl, hh⟩)
      obtain ⟨p, k', t', hfix, hset, ht', hs, hc'⟩ :=
        insertFixLeft_contents cmp data (d := d) (h := h) hl' hr hlt hpivot
      refine ⟨t', k + k', by simp [insertNode, hlt, hins, hfix, hset], ht', ?_, fun _ _ => hs⟩
      rw [hc', hin, insertSorted_left hlt]
    · by_cases hgt : 0 < cmp data d
      · rw [DupPivot, if_neg hlt, if_pos hgt, not_or] at hdup
        obtain ⟨r', k, hins, hr', hin, hsplit⟩ := ihr hr hir hdup.1
        have hpivot := insertNode_pivot_right hc hl hr hir hins hin hsplit (by
          rintro rd rh rr rfl h0 hh
          exact hdup.2 ⟨h0, rfl, hh⟩)
        obtain ⟨p, k', t', hfix, hset, ht', hs, hc'⟩ :=
          insertFixRight_contents cmp data (d := d) (h := h) hl hr' hgt hpivot
        refine ⟨t', k + k', by simp [insertNode, hlt, hgt, hins, hfix, hset], ht', ?_,
          fun _ _ => hs⟩
        rw [hc', hin, insertSorted_right hc hgt hld]
      · have h0 : cmp data d = 0 := by omega
        refine ⟨_, _, insertNode_self h0, heightsNonneg_of_children hl hr rfl, ?_,
          fun hne _ => absurd h0 (hne d h l r rfl)⟩
        rw [avlInorderAction_node, insertSorted_self hc h0 hld]

/-- The double rotation without a pivot loses the subtree, and the height is
then written through NULL. -/
theorem insertNode_dupPivot {cmp : α → α → Int} {data : α} {t : AvlNode α}
    (ht : HeightsNonneg t) (hdup : DupPivot cmp data t) (calloc : Bool) :
    insertNode cmp calloc data t = none := by
  induction t with
  | null => exact absurd hdup (by simp [DupPivot])
  | node d h l r ihl ihr =>
    obtain ⟨-, hl, hr⟩ := ht
    by_cases hlt : cmp data d < 0
    · rw [DupPivot, if_pos hlt] at hdup
      rcases hdup with hdup | hdup
      · simp [insertNode, hlt, ihl hl hdup]
      · rcases l with _ | ⟨ld, lh, ll, lr⟩
        · exact absurd hdup not_false
        · -- the child is only measured again, then rotated around its missing child
          obtain ⟨h0, rfl, hh⟩ := hdup
          have hll := hl.2.1.neg_one_le
          have hfix : insertFixLeft cmp data
              (node d h (node ld (max (height ll) (-1) + 1) ll null) r) = some (null, 1) :=
            insertFixLeft_double (by omega) (by omega)
          rw [insertNode, if_pos hlt, insertNode_self h0, height_null]
          simp only [Option.bind_eq_bind, Option.bind_some, hfix]
          rfl
    · by_cases hgt : 0 < cmp data d
      · rw [DupPivot, if_neg hlt, if_pos hgt] at hdup
        rcases hdup with hdup | hdup
        · simp [insertNode, hlt, hgt, ihr hr hdup]
        · rcases r with _ | ⟨rd, rh, rl, rr⟩
          · exact absurd hdup not_false
          · obtain ⟨h0, rfl, hh⟩ := hdup
            have hrr := hr.2.2.neg_one_le
            have hfix : insertFixRight cmp data
                (node d h l (node rd (max (-1) (height rr) + 1) null rr)) = some (null, 1) :=
              insertFixRight_double (by omega) (by omega)
            rw [insertNode, if_neg hlt, if_pos hgt, insertNode_self h0, height_null]
            simp only [Option.bind_eq_bind, Option.bind_some, hfix]
            rfl
      · rw [DupPivot, if_neg hlt, if_neg hgt] at hdup
        exact absurd hdup not_false

/-! ### Deletion -/

theorem rebalance_left_contents {d : α} {h : Int} {l r : AvlNode α} (hl : HeightsNonneg l)
    (hr : HeightsNonneg r) (hh : height r ≤ height l) :
    ∃ t, rebalance (node d h l r) = some t ∧ HeightsNonneg t ∧
      avlInorderAction t = avlInorderAction l ++ d :: avlInorderAction r := by
  have hr0 := hr.neg_one_le
  by_cases hb : 1 < height l - height r
  · rcases l with _ | ⟨ld, lh, ll, lr⟩
    · rw [height_null] at hb
      omega
    · rw [height_node] at hb
      obtain ⟨-, hll, hlr⟩ := hl
      by_cases hc : height lr ≤ height ll
      · exact ⟨_, rebalance_left_single hb hc,
          heightsNonneg_of_children hll (heightsNonneg_of_children hlr hr rfl) rfl,
          by simp [rotatePRight]⟩
      · rcases lr with _ | ⟨xd, xh, xl, xr⟩
        · have := hll.neg_one_le
          rw [height_null] at hc
          omega
        · exact ⟨_, rebalance_left_double hb hc,
            heightsNonneg_of_children (heightsNonneg_of_children hll hlr.2.1 rfl)
              (heightsNonneg_of_children hlr.2.2 hr rfl) rfl,
            by simp [rotatePRight, rotatePLeft]⟩
  · exact ⟨_, rebalance_balanced (by omega) (by omega),
      heightsNonneg_of_children hl hr (add_comm _ _), rfl⟩

/-- `rebalance` never faults and keeps the contents, however stale the heights. -/
theorem rebalance_contents {d : α} {h : Int} {l r : AvlNode α} (hl : HeightsNonneg l)
    (hr : HeightsNonneg r) :
    ∃ t, rebalance (node d h l r) = some t ∧ HeightsNonneg t ∧
      avlInorderAction t = avlInorderAction l ++ d :: avlInorderAction r := by
  rcases le_total (height r) (height l) with hh | hh
  · exact rebalance_left_contents hl hr hh
  · obtain ⟨t, hreb, ht, hin⟩ := rebalance_left_contents (d := d) (h := h)
      (heightsNonneg_mirror.mpr hr) (heightsNonneg_mirror.mpr hl)
      (by rw [height_mirror, height_mirror]; exact hh)
    refine ⟨mirror t, ?_, heightsNonneg_mirror.mpr ht, ?_⟩
    · rw [← mirror_mirror (node d h l r), rebalance_mirror, mirror_node, hreb]
      rfl
    · rw [avlInorderAction_mirror, hin]
      simp

/-- The successor is the first element, and splicing it out leaves the rest. -/
theorem successor_contents {d : α} {h : Int} {l r : AvlNode α}
    (ht : HeightsNonneg (node d h l r)) :
    ∃ s t, successorData (node d h l r) = some s ∧ spliceSuccessor (node d h l r) = some t ∧
      HeightsNonneg t ∧ avlInorderAction (node d h l r) = s :: avlInorderAction t := by
  induction l generalizing d h r with
  | null => exact ⟨d, r, rfl, rfl, ht.2.2, rfl⟩
  | node ld lh ll lr ihl _ =>
    obtain ⟨hh, hl, hr⟩ := ht
    obtain ⟨s, t, hs, hsp, htn, hin⟩ := ihl hl
    refine ⟨s, node d h t r, hs, ?_, ⟨hh, htn, hr⟩, ?_⟩
    · rw [spliceSuccessor, hsp]
      rfl
    · rw [avlInorderAction_node, hin]
      rfl

theorem removeFound_contents {h : Int} {l r : AvlNode α} (hh : 0 ≤ h)
    (hl : HeightsNonneg l) (hr : HeightsNonneg r) :
    ∃ t, removeFound h l r = some t ∧ HeightsNonneg t ∧
      avlInorderAction t = avlInorderAction l ++ avlInorderAction r := by
  rcases l with _ | ⟨ld, lh, ll, lr⟩
  · exact ⟨r, rfl, hr, rfl⟩
  · rcases r with _ | ⟨rd, rh, rl, rr⟩
    · exact ⟨_, rfl, hl, by simp⟩
    · obtain ⟨s, t, hs, hsp, ht, hin⟩ := successor_contents hr
      refine ⟨node s h (node ld lh ll lr) t, by simp [removeFound, hs, hsp], ⟨hh, hl, ht⟩, ?_⟩
      rw [avlInorderAction_node, hin]

/-- **Deletion is sorted deletion**, on any tree in search order: the element
that compares equal goes, `user_free` is called on it and on nothing else. -/
theorem deleteNode_contents {cmp : α → α → Int} (hc : TotalPreorder cmp) (data : α)
    {t : AvlNode α} (ht : HeightsNonneg t) (hinc : Increasing cmp (avlInorderAction t)) :
    ∃ res, deleteNode cmp data t = some res ∧ HeightsNonneg res.root ∧
      avlInorderAction res.root = eraseSorted cmp data (avlInorderAction t) ∧
      ((res.bNodeDeleted = false ∧ res.destroyed = [] ∧
          ∀ y ∈ avlInorderAction t, cmp data y ≠ 0) ∨
        res.bNodeDeleted = true ∧
          ∃ y ∈ avlInorderAction t, cmp data y = 0 ∧ res.destroyed = [y]) := by
  induction t with
  | null => exact ⟨⟨null, false, []⟩, rfl, trivial, rfl, Or.inl ⟨rfl, rfl, by simp⟩⟩
  | node d h l r ihl ihr =>
    obtain ⟨hh, hl, hr⟩ := ht
    rw [avlInorderAction_node] at hinc ⊢
    obtain ⟨hil, hir, hld, hdr⟩ := (increasing_append_cons hc).mp hinc
    by_cases hlt : cmp data d < 0
    · obtain ⟨res, hdel, hres, hin, hfree⟩ := ihl hl hil
      obtain ⟨t', hreb, ht', hc'⟩ := rebalance_contents (d := d) (h := h) hres hr
      refine ⟨⟨t', res.bNodeDeleted, res.destroyed⟩, by simp [deleteNode, hlt, hdel, hreb],
        ht', by rw [hc', hin, eraseSorted_left hc hdr hlt], ?_⟩
      -- no element to the right of the path compares equal
      have hright : ∀ y ∈ d :: avlInorderAction r, cmp data y ≠ 0 := by
        intro y hy
        obtain rfl | hy := List.mem_cons.mp hy
        · omega
        · have := hc.lt_trans hlt (hdr y hy)
          omega
      rcases hfree with ⟨hb, hd, hno⟩ | ⟨hb, y, hy, hy0, hd⟩
      · exact Or.inl ⟨hb, hd, fun y hy => (List.mem_append.mp hy).elim (hno y) (hright y)⟩
      · exact Or.inr ⟨hb, y, List.mem_append_left _ hy, hy0, hd⟩
    · by_cases hgt : 0 < cmp data d
      · obtain ⟨res, hdel, hres, hin, hfree⟩ := ihr hr hir
        obtain ⟨t', hreb, ht', hc'⟩ := rebalance_contents (d := d) (h := h) hl hres
        refine ⟨⟨t', res.bNodeDeleted, res.destroyed⟩,
          by simp [deleteNode, hlt, hgt, hdel, hreb],
          ht', by rw [hc', hin, eraseSorted_right hc hld hgt], ?_⟩
        have hleft : ∀ y ∈ avlInorderAction l, cmp data y ≠ 0 := by
          intro y hy
          have := hc.pos_of_lt hgt.le hld y hy
          omega
        rcases hfree with ⟨hb, hd, hno⟩ | ⟨hb, y, hy, hy0, hd⟩
        · refine Or.inl ⟨hb, hd, ?_⟩
          intro y hy
          obtain hy | hy := List.mem_append.mp hy
          · exact hleft y hy
          · obtain rfl | hy := List.mem_cons.mp hy
            · omega
            · exact hno y hy
        · exact Or.inr ⟨hb, y, List.mem_append_right _ (List.mem_cons_of_mem d hy), hy0, hd⟩
      · have h0 : cmp data d = 0 := by omega
        obtain ⟨t, hrem, ht, hin⟩ := removeFound_contents hh hl hr
        have hreb : ∃ t', rebalance t = some t' ∧ HeightsNonneg t' ∧
            avlInorderAction t' = avlInorderAction t := by
          cases t with
          | null => exact ⟨null, rfl, trivial, rfl⟩
          | node td th tl tr => exact rebalance_contents ht.2.1 ht.2.2
        obtain ⟨t', hreb, ht', hc'⟩ := hreb
        refine ⟨⟨t', true, [d]⟩, by simp [deleteNode, hlt, hgt, hrem, hreb], ht', ?_,
          Or.inr ⟨rfl, d, by simp, h0, rfl⟩⟩
        rw [hc', hin, eraseSorted_self hc hld hdr h0]

/-! ### Search -/

/-- **Search** returns an element exactly when it is stored and compares equal. -/
theorem searchHelper_eq_some {cmp : α → α → Int} (hc : TotalPreorder cmp) {data y : α}
    {t : AvlNode α} (hinc : Increasing cmp (avlInorderAction t)) :
    searchHelper cmp data t = some y ↔ y ∈ avlInorderAction t ∧ cmp y data = 0 := by
  induction t with
  | null => simp [searchHelper]
  | node d h l r ihl ihr =>
    have hinc' := hinc
    rw [avlInorderAction_node] at hinc
    obtain ⟨hil, hir, hld, hdr⟩ := (increasing_append_cons hc).mp hinc
    have hd : d ∈ avlInorderAction (node d h l r) := by simp
    by_cases h0 : cmp d data = 0
    · rw [searchHelper, if_pos h0, Option.some_inj]
      constructor
      · rintro rfl
        exact ⟨hd, h0⟩
      · rintro ⟨hy, hy0⟩
        -- both compare equal to `data`, so they are the same stored element
        have hdy : cmp d y = 0 := by
          have h1 := hc.trans d data y h0.le (hc.zero_comm.mp hy0).le
          have h2 := hc.trans y data d hy0.le (hc.zero_comm.mp h0).le
          have := hc.antisymm d y
          have := hc.antisymm y d
          omega
        exact hinc'.eq_of_zero hc hd hy hdy
    · rw [searchHelper, if_neg h0, avlInorderAction_node, List.mem_append, List.mem_cons]
      by_cases hlt : cmp d data < 0
      · rw [if_pos hlt, ihr hir]
        refine ⟨fun h => ⟨Or.inr (Or.inr h.1), h.2⟩, ?_⟩
        rintro ⟨hy | rfl | hy, hy0⟩
        · have := hc.lt_trans (hld y hy) hlt
          omega
        · omega
        · exact ⟨hy, hy0⟩
      · rw [if_neg hlt, ihl hil]
        refine ⟨fun h => ⟨Or.inl h.1, h.2⟩, ?_⟩
        rintro ⟨hy | rfl | hy, hy0⟩
        · exact ⟨hy, hy0⟩
        · omega
        · have hdy := hdr y hy
          have hyd := hc.lt_of_lt_of_le hdy hy0.le
          omega

end AvlTreeLib
