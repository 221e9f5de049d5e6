/-
Who owns the data of an AVL tree, from `avl_create` to `destroy_avl_tree`.

A user who calls `avl_insert` hands a pointer over; the library hands it back by
calling `user_free` on it, once, in a deletion or when the tree is destroyed:

* `treeStep` — the calls on a variable of type `avl_tree_t *`, which is NULL before
  `avl_create` and after `destroy_avl_tree`;
* `insertNode_owns`, `deleteNode_owns` — what one call adds to the data in the tree
  and what it takes out, whatever the comparator answers;
* `avl_lifetime` — over a whole run, with allocations that may fail: what has been
  handed to `user_free` and what is in the tree is what insertions have stored.
-/
import UnixPrograms.AvlCount
import UnixPrograms.AvlTraversals

namespace AvlTreeLib

open AvlNode Machine OrderedList

variable {α : Type*}

/-! ### The code -/

/-- `avl_create`, with the tests of its arguments and its allocation. -/
def avlCreateTree (cmpFunc : Option (α → α → Int)) (userDestory calloc : Bool) :
    Option (AvlTree α) :=
  match cmpFunc with
  | none => none
  | some cmp =>
    if userDestory = false then none
    else if calloc = false then none
    else some (avlCreate cmp)

/-- `destroy_avl_tree`: the variable afterwards, and the calls of `user_free`. -/
def destroyAvlTree : Option (AvlTree α) → Option (AvlTree α) × List α
  | none => (none, [])
  | some pTree => (none, destroyAvlNode pTree.pRoot)

/-- A call on a variable of type `avl_tree_t *`. -/
inductive TreeCall (α : Type*) where
  | create (cmpFunc : Option (α → α → Int)) (userDestory calloc : Bool)
  | call (calloc : Bool) (op : AvlOp α)
  | destroy

/-- What the caller sees of it. -/
inductive TreeOut (α : Type*) where
  | created
  | answered (o : AvlOut α)
  | destroyed (data : List α)
  | ignored
  deriving DecidableEq

/-- What the functions answer when the tree is NULL. -/
def onNull : AvlOp α → TreeOut α
  | .insert _ => .ignored
  | .delete _ => .answered (.deleted false [])
  | .search _ => .answered (.found none)

/-- One call; `none` is a NULL dereference. -/
def treeStep (v : Option (AvlTree α)) : TreeCall α → Option (Option (AvlTree α) × TreeOut α)
  -- a tree that was in the variable is not freed
  | .create cmpFunc userDestory calloc =>
    some (avlCreateTree cmpFunc userDestory calloc, .created)
  | .call calloc op =>
    match v with
    | none => some (none, onNull op)
    | some s => (avlStep calloc s op).map fun p => (some p.1, .answered p.2)
  | .destroy =>
    let (v, data) := destroyAvlTree v
    some (v, .destroyed data)

/-! ### Who has the data -/

/-- The data that a call hands to `user_free`. -/
def TreeOut.freed : TreeOut α → List α
  | .answered (.deleted _ data) => data
  | .destroyed data => data
  | _ => []

/-- The data in the tree. -/
def held : Option (AvlTree α) → List α
  | none => []
  | some s => avlInorderAction s.pRoot

/-- The data that a call stores: that of an insertion whose allocation succeeds and
whose walk comes to a NULL. -/
def stored : Option (AvlTree α) → TreeCall α → List α
  | some s, .call calloc (.insert data) =>
    if calloc = true ∧ ReachesNull s.cmp data s.pRoot then [data] else []
  | _, _ => []

/-- A tree is made only in a variable that has none. -/
def CreatesOnNull (v : Option (AvlTree α)) : TreeCall α → Prop
  | .create _ _ _ => v = none
  | _ => True

instance CreatesOnNull.instDecidable :
    ∀ (v : Option (AvlTree α)) (c : TreeCall α), Decidable (CreatesOnNull v c)
  | none, .create _ _ _ => isTrue rfl
  | some _, .create _ _ _ => isFalse (Option.some_ne_none _)
  | _, .call _ _ => isTrue trivial
  | _, .destroy => isTrue trivial

/-! ### One call -/

/-- A repair on the left that gets as far as the new height has kept all data. -/
theorem insertFixLeft_owns {cmp : α → α → Int} {data d : α} {h : Int} {l r p t : AvlNode α}
    {k : ℕ} (hl : HeightsNonneg l) (hr : HeightsNonneg r) (hlt : cmp data d < 0)
    (hfix : insertFixLeft cmp data (node d h l r) = some (p, k))
    (hset : setHeight p = some t) :
    avlInorderAction t = avlInorderAction l ++ d :: avlInorderAction r := by
  by_cases hpivot : ∀ ld lh ll, l = node ld lh ll null → lh = height r + 2 → cmp data ld < 0
  · obtain ⟨p', k', t', hfix', hset', -, -, hin⟩ :=
      insertFixLeft_contents cmp data (h := h) hl hr hlt hpivot
    cases hfix.symm.trans hfix'
    cases hset.symm.trans hset'
    exact hin
  · push Not at hpivot
    obtain ⟨ld, lh, ll, rfl, hh, hle⟩ := hpivot
    rw [insertFixLeft_double (by omega) (by omega)] at hfix
    cases hfix
    cases hset

theorem insertFixRight_owns {cmp : α → α → Int} {data d : α} {h : Int} {l r p t : AvlNode α}
    {k : ℕ} (hl : HeightsNonneg l) (hr : HeightsNonneg r) (hgt : 0 < cmp data d)
    (hfix : insertFixRight cmp data (node d h l r) = some (p, k))
    (hset : setHeight p = some t) :
    avlInorderAction t = avlInorderAction l ++ d :: avlInorderAction r := by
  rw [insertFixRight_eq_mirror, Option.map_eq_some_iff] at hfix
  obtain ⟨⟨q, k'⟩, hfix, heq⟩ := hfix
  obtain ⟨rfl, -⟩ := Prod.mk.inj heq
  rw [setHeight_mirror, Option.map_eq_some_iff] at hset
  obtain ⟨u, hset, rfl⟩ := hset
  have hgt' : flipCmp cmp data d < 0 := Int.neg_neg_of_pos hgt
  have hin := insertFixLeft_owns (heightsNonneg_mirror.mpr hr) (heightsNonneg_mirror.mpr hl)
    hgt' hfix hset
  rw [avlInorderAction_mirror, hin]
  simp

/-- **What one insertion stores**, besides what was there. -/
theorem insertNode_owns {cmp : α → α → Int} {calloc : Bool} {data : α} {t t' : AvlNode α}
    {k : ℕ} (ht : HeightsNonneg t) (hins : insertNode cmp calloc data t = some (t', k)) :
    (avlInorderAction t').Perm (avlInorderAction t ++
      if calloc = true ∧ ReachesNull cmp data t then [data] else []) := by
  induction t generalizing t' k with
  | null =>
    cases hins
    cases calloc
    · exact List.Perm.refl _
    · exact List.Perm.refl _
  | node d h l r ihl ihr =>
    obtain ⟨-, hl, hr⟩ := ht
    by_cases hlt : cmp data d < 0
    · rw [insertNode, if_pos hlt] at hins
      simp only [Option.bind_eq_bind, Option.bind_eq_some_iff, Option.some_inj,
        Prod.mk.injEq, Prod.exists] at hins
      obtain ⟨l', kl, hinsl, p, kp, hfix, t₁, hset, rfl, -⟩ := hins
      have hl' := (insertNode_count hl hinsl).1
      rw [insertFixLeft_owns hl' hr hlt hfix hset, avlInorderAction_node]
      simp only [reachesNull_left hlt]
      -- the new data go from the left subtree to the end of the list
      refine ((ihl hl hinsl).append_right _).trans ?_
      rw [List.append_assoc, List.append_assoc]
      exact List.perm_append_comm.append_left _
    · by_cases hgt : 0 < cmp data d
      · rw [insertNode, if_neg hlt, if_pos hgt] at hins
        simp only [Option.bind_eq_bind, Option.bind_eq_some_iff, Option.some_inj,
          Prod.mk.injEq, Prod.exists] at hins
        obtain ⟨r', kr, hinsr, p, kp, hfix, t₁, hset, rfl, -⟩ := hins
        have hr' := (insertNode_count hr hinsr).1
        rw [insertFixRight_owns hl hr' hgt hfix hset, avlInorderAction_node]
        simp only [reachesNull_right hgt]
        rw [List.append_assoc, List.cons_append]
        exact ((ihr hr hinsr).cons d).append_left _
      · -- nothing is stored beside data that compare equal
        have h0 : cmp data d = 0 := by omega
        rw [insertNode_self h0] at hins
        cases hins
        rw [if_neg fun hadd => not_reachesNull_self h0 hadd.2, List.append_nil]
        exact List.Perm.refl _

theorem rebalance_owns {t t' : AvlNode α} (ht : HeightsNonneg t)
    (hreb : rebalance t = some t') : avlInorderAction t' = avlInorderAction t := by
  cases t with
  | null =>
    cases hreb
    rfl
  | node d h l r =>
    obtain ⟨t₁, hreb₁, -, hin⟩ := rebalance_contents (d := d) (h := h) ht.2.1 ht.2.2
    cases hreb.symm.trans hreb₁
    exact hin

/-- **What one deletion hands back** is what is then missing in the tree. -/
theorem deleteNode_owns {cmp : α → α → Int} {data : α} {t : AvlNode α}
    {res : DeleteResult α} (ht : HeightsNonneg t) (hdel : deleteNode cmp data t = some res) :
    (res.destroyed ++ avlInorderAction res.root).Perm (avlInorderAction t) := by
  induction t generalizing res with
  | null =>
    cases hdel
    exact List.Perm.refl _
  | node d h l r ihl ihr =>
    obtain ⟨hh, hl, hr⟩ := ht
    by_cases hlt : cmp data d < 0
    · rw [deleteNode, if_pos hlt] at hdel
      simp only [Option.bind_eq_bind, Option.bind_eq_some_iff, Option.some_inj] at hdel
      obtain ⟨resl, hdell, root, hreb, rfl⟩ := hdel
      have hl' := (deleteNode_count hl hdell).1
      simp only [rebalance_owns (t := node d h resl.root r) ⟨hh, hl', hr⟩ hreb,
        avlInorderAction_node]
      rw [← List.append_assoc]
      exact (ihl hl hdell).append_right _
    · by_cases hgt : 0 < cmp data d
      · rw [deleteNode, if_neg hlt, if_pos hgt] at hdel
        simp only [Option.bind_eq_bind, Option.bind_eq_some_iff, Option.some_inj] at hdel
        obtain ⟨resr, hdelr, root, hreb, rfl⟩ := hdel
        have hr' := (deleteNode_count hr hdelr).1
        simp only [rebalance_owns (t := node d h l resr.root) ⟨hh, hl, hr'⟩ hreb,
          avlInorderAction_node]
        refine (List.perm_append_comm_assoc _ _ _).trans (List.Perm.append_left _ ?_)
        exact List.perm_middle.trans ((ihr hr hdelr).cons d)
      · rw [deleteNode, if_neg hlt, if_neg hgt] at hdel
        simp only [Option.bind_eq_bind, Option.bind_eq_some_iff, Option.some_inj] at hdel
        obtain ⟨t₁, hfound, root, hreb, rfl⟩ := hdel
        obtain ⟨t₂, hfound', ht₂, hin⟩ := removeFound_contents hh hl hr
        cases hfound.symm.trans hfound'
        -- the data of the node that was found, wherever the node itself went
        simp only [rebalance_owns ht₂ hreb, hin, avlInorderAction_node]
        rw [List.singleton_append]
        exact List.perm_middle.symm

/-! ### Runs -/

/-- What is in the variable is a tree without negative heights. -/
def Kept : Option (AvlTree α) → Prop
  | none => True
  | some s => HeightsNonneg s.pRoot

/-- **The step lemma.** -/
theorem treeStep_owns {v v' : Option (AvlTree α)} {c : TreeCall α} {o : TreeOut α}
    (hv : Kept v) (hc : CreatesOnNull v c) (hstep : treeStep v c = some (v', o)) :
    Kept v' ∧ (o.freed ++ held v').Perm (held v ++ stored v c) := by
  cases c with
  | create cmpFunc userDestory calloc =>
    obtain rfl : v = none := hc
    obtain ⟨rfl, rfl⟩ := Prod.mk.inj (Option.some.inj hstep)
    rcases cmpFunc with _ | cmp
    · exact ⟨trivial, List.Perm.refl _⟩
    · cases userDestory
      · exact ⟨trivial, List.Perm.refl _⟩
      · cases calloc
        · exact ⟨trivial, List.Perm.refl _⟩
        · exact ⟨trivial, List.Perm.refl _⟩
  | destroy =>
    obtain ⟨rfl, rfl⟩ := Prod.mk.inj (Option.some.inj hstep)
    refine ⟨by cases v <;> trivial, ?_⟩
    rcases v with _ | s
    · exact List.Perm.refl _
    · exact (destroyAvlNode_perm s.pRoot).append_right []
  | call calloc op =>
    rcases v with _ | s
    · obtain ⟨rfl, rfl⟩ := Prod.mk.inj (Option.some.inj hstep)
      refine ⟨trivial, ?_⟩
      cases op <;> exact List.Perm.refl _
    · obtain ⟨⟨s', o'⟩, hcall, heq⟩ := Option.map_eq_some_iff.mp hstep
      obtain ⟨rfl, rfl⟩ := Prod.mk.inj heq
      cases op with
      | insert data =>
        obtain ⟨t, k, hins, rfl, rfl⟩ := avlStep_insert.mp hcall
        exact ⟨(insertNode_count hv hins).1, insertNode_owns hv hins⟩
      | delete data =>
        obtain ⟨res, hdel, rfl, rfl⟩ := avlStep_delete.mp hcall
        refine ⟨(deleteNode_count hv hdel).1, ?_⟩
        exact (deleteNode_owns hv hdel).trans (by simp [held, stored])
      | search data =>
        obtain ⟨rfl, rfl⟩ := avlStep_search.mp hcall
        exact ⟨hv, by simp [TreeOut.freed, held, stored]⟩

/-- **From creation to destruction.**  In every run of calls that follows no NULL, on a
variable that is NULL at first, over any number of trees made in it one after the
other, with duplicates and failed allocations, the data handed to `user_free` and the
data in the tree are together, each as often as it was stored, the data that insertions
have stored; and `destroy_avl_tree` hands over the rest and leaves NULL. -/
theorem avl_lifetime (calls : List (TreeCall α)) {v : Option (AvlTree α)}
    {outs : List (TreeOut α)} (hrun : run treeStep none calls = some (v, outs))
    (hcreate : RunMeets treeStep CreatesOnNull none calls) :
    (outs.flatMap TreeOut.freed ++ held v).Perm (gather treeStep stored none calls) ∧
      ∃ o, treeStep v .destroy = some (none, o) ∧
        ((outs ++ [o]).flatMap TreeOut.freed).Perm (gather treeStep stored none calls) := by
  have hperm := run_conserves Kept (fun s i s' o hs hP => treeStep_owns hs hP)
    (s := none) trivial hcreate hrun
  refine ⟨hperm, .destroyed (destroyAvlTree v).2, ?_, ?_⟩
  · cases v <;> rfl
  · rw [List.flatMap_append, List.flatMap_singleton]
    refine List.Perm.trans (List.Perm.append_left _ ?_) hperm
    rcases v with _ | s
    · exact List.Perm.refl _
    · exact destroyAvlNode_perm s.pRoot

/-- Two trees in one variable; a duplicate and a failed allocation are not stored. -/
def twoTrees : List (TreeCall Int) :=
  [.create (some intCmp) true true, .call true (.insert 2), .call true (.insert 1),
    .call true (.insert 2), .call false (.insert 3), .call true (.delete 1), .destroy,
    .call true (.insert 4), .create (some intCmp) true true, .call true (.insert 5)]

theorem avl_lifetime_twoTrees :
    gather treeStep stored none twoTrees = [2, 1, 5] ∧
      ∃ v outs, run treeStep none twoTrees = some (v, outs) ∧
        (outs.flatMap TreeOut.freed ++ held v).Perm (gather treeStep stored none twoTrees) ∧
          ∃ o, treeStep v .destroy = some (none, o) ∧
            ((outs ++ [o]).flatMap TreeOut.freed).Perm
              (gather treeStep stored none twoTrees) :=
  ⟨by decide, _, _, rfl, avl_lifetime twoTrees rfl (by decide)⟩

end AvlTreeLib
