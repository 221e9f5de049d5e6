/-
The element counter of the AVL tree.

`avl_insert` adds one to `count` after every call of `insert_node`, while
`avl_delete_node` asks `delete_node` whether a node has really gone.

* `insertNode_count` — a call of `insert_node` that returns has added a node
  exactly when its allocation succeeded and its walk came to a NULL;
* `deleteNode_count` — a call of `delete_node` has taken one node out exactly
  when it says so;
* `avl_count_iff` — `count` is the number of nodes after every call of a run
  exactly when every insertion of the run has added its node.
-/
import UnixPrograms.AvlContents
import UnixPrograms.AvlLevelOrder

namespace AvlTreeLib

open AvlNode Machine OrderedList

variable {α : Type*}

/-- `avl_total_elements`. -/
def avlTotalElements (pTree : AvlTree α) : ℕ := avlNodeCount pTree.pRoot

/-- A call of the library together with what becomes of its allocation. -/
def avlCall (s : AvlTree α) (call : Bool × AvlOp α) : Option (AvlTree α × AvlOut α) :=
  avlStep call.1 s call.2

theorem avlNodeCount_eq_length (t : AvlNode α) :
    avlNodeCount t = (avlInorderAction t).length := by
  induction t with
  | null => rfl
  | node d h l r ihl ihr =>
    rw [avlNodeCount, ihl, ihr, avlInorderAction_node, List.length_append, List.length_cons,
      Nat.add_assoc]

theorem avlNodeCount_mirror (t : AvlNode α) : avlNodeCount (mirror t) = avlNodeCount t := by
  rw [avlNodeCount_eq_length, avlInorderAction_mirror, List.length_reverse,
    avlNodeCount_eq_length]

/-! ### Insertion -/

/-- No node on the walk of `insert_node` compares equal to `data`, so that the
walk ends at a NULL. -/
def ReachesNull (cmp : α → α → Int) (data : α) : AvlNode α → Prop
  | null => True
  | node d _ l r =>
    if cmp data d < 0 then ReachesNull cmp data l
    else if 0 < cmp data d then ReachesNull cmp data r
    else False

instance ReachesNull.instDecidable (cmp : α → α → Int) (data : α) :
    ∀ t : AvlNode α, Decidable (ReachesNull cmp data t)
  | null => isTrue trivial
  | node d _ l r =>
    have := ReachesNull.instDecidable cmp data l
    have := ReachesNull.instDecidable cmp data r
    inferInstanceAs (Decidable (if cmp data d < 0 then ReachesNull cmp data l
      else if 0 < cmp data d then ReachesNull cmp data r else False))

section Walk

variable {cmp : α → α → Int} {data d : α} {h : Int} {l r : AvlNode α}

theorem reachesNull_left (hlt : cmp data d < 0) :
    ReachesNull cmp data (node d h l r) ↔ ReachesNull cmp data l := by
  rw [ReachesNull, if_pos hlt]

theorem reachesNull_right (hgt : 0 < cmp data d) :
    ReachesNull cmp data (node d h l r) ↔ ReachesNull cmp data r := by
  rw [ReachesNull, if_neg (by omega), if_pos hgt]

theorem not_reachesNull_self (h0 : cmp data d = 0) :
    ¬ ReachesNull cmp data (node d h l r) := by
  rw [ReachesNull, if_neg (by omega), if_neg (by omega)]
  exact not_false

end Walk

/-- On a tree in search order the walk comes to a NULL exactly when no stored
element compares equal. -/
theorem reachesNull_iff {cmp : α → α → Int} (hc : TotalPreorder cmp) {data : α}
    {t : AvlNode α} (hinc : Increasing cmp (avlInorderAction t)) :
    ReachesNull cmp data t ↔ ∀ y ∈ avlInorderAction t, cmp data y ≠ 0 := by
  induction t with
  | null => simp [ReachesNull]
  | node d h l r ihl ihr =>
    rw [avlInorderAction_node] at hinc ⊢
    obtain ⟨hil, hir, hld, hdr⟩ := (increasing_append_cons hc).mp hinc
    rw [List.forall_mem_append, List.forall_mem_cons]
    by_cases hlt : cmp data d < 0
    · rw [reachesNull_left hlt, ihl hil]
      refine ⟨fun hno => ⟨hno, by omega, fun y hy => ?_⟩, fun hno => hno.1⟩
      have := hc.lt_trans hlt (hdr y hy)
      omega
    · by_cases hgt : 0 < cmp data d
      · rw [reachesNull_right hgt, ihr hir]
        refine ⟨fun hno => ⟨fun y hy => ?_, by omega, hno⟩, fun hno => hno.2.2⟩
        have := hc.pos_of_lt hgt.le hld y hy
        omega
      · have h0 : cmp data d = 0 := by omega
        exact ⟨fun hwalk => absurd hwalk (not_reachesNull_self h0),
          fun hno => absurd h0 hno.2.1⟩

/-- A repair on the left that gets as far as the new height has kept every
node: the one rotation that drops a subtree leaves NULL behind. -/
theorem insertFixLeft_keeps {cmp : α → α → Int} {data d : α} {h : Int}
    {l r p t : AvlNode α} {k : ℕ} (hl : HeightsNonneg l) (hr : HeightsNonneg r)
    (hlt : cmp data d < 0) (hfix : insertFixLeft cmp data (node d h l r) = some (p, k))
    (hset : setHeight p = some t) :
    HeightsNonneg t ∧ avlNodeCount t = avlNodeCount l + avlNodeCount r + 1 := by
  by_cases hpivot : ∀ ld lh ll, l = node ld lh ll null → lh = height r + 2 → cmp data ld < 0
  · obtain ⟨p', k', t', hfix', hset', ht', -, hin⟩ :=
      insertFixLeft_contents cmp data (h := h) hl hr hlt hpivot
    cases hfix.symm.trans hfix'
    cases hset.symm.trans hset'
    refine ⟨ht', ?_⟩
    rw [avlNodeCount_eq_length, hin, ← avlInorderAction_node d h, ← avlNodeCount_eq_length,
      avlNodeCount]
  · push Not at hpivot
    obtain ⟨ld, lh, ll, rfl, hh, hle⟩ := hpivot
    rw [insertFixLeft_double (by omega) (by omega)] at hfix
    cases hfix
    cases hset

theorem insertFixRight_keeps {cmp : α → α → Int} {data d : α} {h : Int}
    {l r p t : AvlNode α} {k : ℕ} (hl : HeightsNonneg l) (hr : HeightsNonneg r)
    (hgt : 0 < cmp data d) (hfix : insertFixRight cmp data (node d h l r) = some (p, k))
    (hset : setHeight p = some t) :
    HeightsNonneg t ∧ avlNodeCount t = avlNodeCount l + avlNodeCount r + 1 := by
  rw [insertFixRight_eq_mirror, Option.map_eq_some_iff] at hfix
  obtain ⟨⟨q, k'⟩, hfix, heq⟩ := hfix
  obtain ⟨rfl, -⟩ := Prod.mk.inj heq
  rw [setHeight_mirror, Option.map_eq_some_iff] at hset
  obtain ⟨u, hset, rfl⟩ := hset
  have hgt' : flipCmp cmp data d < 0 := Int.neg_neg_of_pos hgt
  obtain ⟨hu, hcount⟩ := insertFixLeft_keeps (heightsNonneg_mirror.mpr hr)
    (heightsNonneg_mirror.mpr hl) hgt' hfix hset
  rw [avlNodeCount_mirror r, avlNodeCount_mirror l] at hcount
  rw [avlNodeCount_mirror]
  exact ⟨heightsNonneg_mirror.mpr hu, by omega⟩

/-- **What one insertion adds**: a node, when the allocation succeeds and the
walk comes to a NULL, and nothing otherwise. -/
theorem insertNode_count {cmp : α → α → Int} {calloc : Bool} {data : α}
    {t t' : AvlNode α} {k : ℕ} (ht : HeightsNonneg t)
    (hins : insertNode cmp calloc data t = some (t', k)) :
    HeightsNonneg t' ∧ avlNodeCount t' =
      avlNodeCount t + if calloc = true ∧ ReachesNull cmp data t then 1 else 0 := by
  induction t generalizing t' k with
  | null =>
    cases hins
    cases calloc
    · exact ⟨trivial, rfl⟩
    · exact ⟨⟨le_refl _, trivial, trivial⟩, rfl⟩
  | node d h l r ihl ihr =>
    obtain ⟨-, hl, hr⟩ := ht
    by_cases hlt : cmp data d < 0
    · rw [insertNode, if_pos hlt] at hins
      simp only [Option.bind_eq_bind, Option.bind_eq_some_iff, Option.some_inj,
        Prod.mk.injEq, Prod.exists] at hins
      obtain ⟨l', kl, hinsl, p, kp, hfix, t₁, hset, rfl, -⟩ := hins
      obtain ⟨hl', hcount⟩ := ihl hl hinsl
      obtain ⟨ht₁, hkept⟩ := insertFixLeft_keeps hl' hr hlt hfix hset
      refine ⟨ht₁, ?_⟩
      simp only [hkept, hcount, avlNodeCount, reachesNull_left hlt]
      omega
    · by_cases hgt : 0 < cmp data d
      · rw [insertNode, if_neg hlt, if_pos hgt] at hins
        simp only [Option.bind_eq_bind, Option.bind_eq_some_iff, Option.some_inj,
          Prod.mk.injEq, Prod.exists] at hins
        obtain ⟨r', kr, hinsr, p, kp, hfix, t₁, hset, rfl, -⟩ := hins
        obtain ⟨hr', hcount⟩ := ihr hr hinsr
        obtain ⟨ht₁, hkept⟩ := insertFixRight_keeps hl hr' hgt hfix hset
        refine ⟨ht₁, ?_⟩
        simp only [hkept, hcount, avlNodeCount, reachesNull_right hgt]
        omega
      · -- the walk stops at a node that compares equal
        have h0 : cmp data d = 0 := by omega
        rw [insertNode_self h0] at hins
        cases hins
        refine ⟨heightsNonneg_of_children hl hr rfl, ?_⟩
        rw [if_neg fun hadd => not_reachesNull_self h0 hadd.2]
        rfl

/-! ### Deletion -/

theorem rebalance_count {t t' : AvlNode α} (ht : HeightsNonneg t)
    (hreb : rebalance t = some t') :
    HeightsNonneg t' ∧ avlNodeCount t' = avlNodeCount t := by
  cases t with
  | null =>
    cases hreb
    exact ⟨trivial, rfl⟩
  | node d h l r =>
    obtain ⟨t₁, hreb₁, ht₁, hin⟩ := rebalance_contents (d := d) (h := h) ht.2.1 ht.2.2
    cases hreb.symm.trans hreb₁
    refine ⟨ht₁, ?_⟩
    rw [avlNodeCount_eq_length, hin, ← avlInorderAction_node d h, ← avlNodeCount_eq_length]

/-- **What one deletion takes out**: one node when it says so, else none. -/
theorem deleteNode_count {cmp : α → α → Int} {data : α} {t : AvlNode α}
    {res : DeleteResult α} (ht : HeightsNonneg t) (hdel : deleteNode cmp data t = some res) :
    HeightsNonneg res.root ∧
      avlNodeCount res.root + (if res.bNodeDeleted then 1 else 0) = avlNodeCount t := by
  induction t generalizing res with
  | null =>
    cases hdel
    exact ⟨trivial, rfl⟩
  | node d h l r ihl ihr =>
    obtain ⟨hh, hl, hr⟩ := ht
    by_cases hlt : cmp data d < 0
    · rw [deleteNode, if_pos hlt] at hdel
      simp only [Option.bind_eq_bind, Option.bind_eq_some_iff, Option.some_inj] at hdel
      obtain ⟨resl, hdell, root, hreb, rfl⟩ := hdel
      obtain ⟨hl', hcount⟩ := ihl hl hdell
      obtain ⟨hroot, hkept⟩ := rebalance_count (t := node d h resl.root r) ⟨hh, hl', hr⟩ hreb
      refine ⟨hroot, ?_⟩
      simp only [hkept, avlNodeCount]
      omega
    · by_cases hgt : 0 < cmp data d
      · rw [deleteNode, if_neg hlt, if_pos hgt] at hdel
        simp only [Option.bind_eq_bind, Option.bind_eq_some_iff, Option.some_inj] at hdel
        obtain ⟨resr, hdelr, root, hreb, rfl⟩ := hdel
        obtain ⟨hr', hcount⟩ := ihr hr hdelr
        obtain ⟨hroot, hkept⟩ := rebalance_count (t := node d h l resr.root) ⟨hh, hl, hr'⟩ hreb
        refine ⟨hroot, ?_⟩
        simp only [hkept, avlNodeCount]
        omega
      -- the data are found, and counted through the contents
      · rw [deleteNode, if_neg hlt, if_neg hgt] at hdel
        simp only [Option.bind_eq_bind, Option.bind_eq_some_iff, Option.some_inj] at hdel
        obtain ⟨t₁, hfound, root, hreb, rfl⟩ := hdel
        obtain ⟨t₂, hfound', ht₂, hin⟩ := removeFound_contents hh hl hr
        cases hfound.symm.trans hfound'
        obtain ⟨hroot, hkept⟩ := rebalance_count ht₂ hreb
        refine ⟨hroot, ?_⟩
        simp only [hkept, avlNodeCount, avlNodeCount_eq_length, hin, List.length_append,
          if_true]

/-! ### Runs -/

/-- The counter and the nodes agree after the call. -/
def CountsNodes (_ : AvlTree α) (_ : Bool × AvlOp α) (s' : AvlTree α) (_ : AvlOut α) : Prop :=
  s'.count = avlTotalElements s'

instance CountsNodes.instDecidable (s : AvlTree α) (call : Bool × AvlOp α) (s' : AvlTree α)
    (o : AvlOut α) : Decidable (CountsNodes s call s' o) :=
  inferInstanceAs (Decidable (s'.count = avlTotalElements s'))

end AvlTreeLib
